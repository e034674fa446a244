import Wheelwork.Proofs.Budget
import Wheelwork.Proofs.Precedence

/-!
Two ways to bring numbers together: staged one by one in the queue and claimed from there, or left
on the wheel and taken as a whole. Both programs are straight: every instruction goes on to the
next one, so that a run is told by what each of them makes of the wheel and the queue.
-/
namespace Wheelwork

def Instruction.Makes (i : Instruction) (w : Wheel) (q : ArgQueue) (w' : Wheel) (q' : ArgQueue) :
    Prop :=
  ∀ m : Machine, m.wheel = w → m.queue = q → m.perform i = .go (m.having w' q').advance

/-- What the instructions make of a wheel and a queue, one after the other. -/
inductive Straight : List Instruction → Wheel → ArgQueue → Wheel → ArgQueue → Prop where
  | done (w : Wheel) (q : ArgQueue) : Straight [] w q w q
  | next {i : Instruction} {code : List Instruction} {w w' w'' : Wheel} {q q' q'' : ArgQueue}
      (makes : i.Makes w q w' q') (rest : Straight code w' q' w'' q'') :
      Straight (i :: code) w q w'' q''

namespace Straight

variable {code more : List Instruction} {w w' w'' : Wheel} {q q' q'' : ArgQueue}

theorem append (first : Straight code w q w' q') (second : Straight more w' q' w'' q'') :
    Straight (code ++ more) w q w'' q'' := by
  induction first with
  | done => exact second
  | next makes _ ih => exact .next makes (ih second)

end Straight

def Machine.along (p : Program) (k : Nat) (w : Wheel) (q : ArgQueue) : Machine :=
  { start p none with cursor := k, frames := { active := w }, queue := q, steps := k }

/-- On every host, and with any budget that covers its steps, the program runs to this machine with
this result and leaves the host alone. -/
def Program.RunsTo (p : Program) (m : Machine) (result : Except RunError Exit) : Prop :=
  ∀ (σ : Type) [Host σ] (host : σ) (limit : Option Nat), (∀ most ∈ limit, m.steps ≤ most) →
    (Session.start p limit host).run = some (⟨m.budgeted limit, host⟩, result)

theorem Machine.progress_along (p : Program) (k : Nat) (w : Wheel) (q : ArgQueue) :
    (along p k w q).progress = if p.size ≤ k then .finished .endOfStream else .running := by
  have atEnd : (along p k w q).atEnd = decide (p.size ≤ k) := rfl
  rw [progress, atEnd]
  simp

namespace Program

variable {p : Program} {i : Instruction} {before code after : List Instruction}

theorem get_written (written : p.instructions.toList = before ++ i :: after) :
    p.get? before.length = some i := by
  simp [Program.get?, ← Array.getElem?_toList, written]

theorem size_written (written : p.instructions.toList = code) : p.size = code.length := by
  simp [Program.size, ← written]

end Program

namespace Session

open Machine Program

variable {σ : Type} [Host σ] {host : σ} {p : Program} {k : Nat} {i : Instruction}
  {before code after : List Instruction} {w w' : Wheel} {q q' : ArgQueue} {cause : Fault}

theorem step_makes (host : σ) (current : p.get? k = some i) (makes : i.Makes w q w' q') :
    step ⟨along p k w q, host⟩ =
      (⟨along p (k + 1) w' q', host⟩, (along p (k + 1) w' q').progress) := by
  have performed : (along p k w q).counted.perform i = .go (along p (k + 1) w' q') :=
    makes (along p k w q).counted rfl rfl
  have turned : (along p k w q).turn = .go (along p (k + 1) w' q') := by
    rw [turn_of_dispatches (dispatches_unlimited current rfl), dispatch_sound, performed]
    simp [performed]
  simp only [step_mk, turned]

theorem step_fatal (host : σ) (current : p.get? k = some i) (final : p.get? (k + 1) = none)
    (raises : (along p k w q).counted.Raises i cause q') :
    step ⟨along p k w q, host⟩ =
      (⟨(along p k w q').counted, host⟩, .failed (.fatal ⟨cause, k, i⟩)) := by
  have next : ((along p k w q).counted.requeue q').program.get?
      (((along p k w q).counted.requeue q').cursor + 1) = none := final
  have turned : (along p k w q).turn = .fault ⟨cause, k, i⟩ (along p k w q').counted := by
    rw [turn_of_dispatches (dispatches_unlimited current rfl), dispatch_raised raises]
    simp only [recover, next]
    rfl
  simp only [step_mk, turned]

/-- Straight code that more code follows takes one step an instruction. -/
theorem runFor_straight (host : σ) (path : Straight code w q w' q')
    (written : p.instructions.toList = before ++ (code ++ after)) (left : after ≠ [])
    (more : Nat) :
    runFor (code.length + more) ⟨along p before.length w q, host⟩ =
      runFor more ⟨along p (before.length + code.length) w' q', host⟩ := by
  induction path generalizing before with
  | done => simp
  | @next i code w v _ q r _ makes rest ih =>
    have stepped := step_makes host (get_written written) makes
    have inside : ¬ p.size ≤ before.length + 1 := by
      have some := List.length_pos_iff.mpr left
      simp only [size_written written, List.length_append, List.length_cons]
      omega
    have going : (step ⟨along p before.length w q, host⟩).2.result? = none := by
      simp [stepped, progress_along, inside, Progress.result?]
    have later := @ih (before ++ [i]) (by rw [written]; simp)
    rw [List.length_append, List.length_singleton] at later
    rw [List.length_cons, Nat.add_right_comm, runFor_going _ going, stepped, later,
      Nat.add_right_comm before.length, Nat.add_assoc]

theorem runFor_last {t : Session σ} {progress : Progress} {result : Except RunError Exit}
    (path : Straight code {} {} w q) (written : p.instructions.toList = code ++ [i])
    (stepped : step ⟨along p code.length w q, host⟩ = (t, progress))
    (told : progress.result? = some result) :
    runFor p.size (start p none host) = (t, some result) := by
  have whole : p.instructions.toList = [] ++ (code ++ [i]) := written
  have ran := runFor_straight host path whole (by simp) 1
  have ended : (step ⟨along p code.length w q, host⟩).2.result? = some result := by rwa [stepped]
  rw [List.length_nil, Nat.zero_add, runFor_over 0 ended, stepped] at ran
  rw [size_written written, List.length_append, List.length_singleton]
  exact ran

end Session

namespace Program

open Machine Session

variable {p : Program} {i : Instruction} {code : List Instruction} {w w' : Wheel} {q q' : ArgQueue}
  {cause : Fault} {m m' : Machine} {result result' : Except RunError Exit}

theorem runsTo_of_runFor (unlimited : m.limit = none)
    (ran : ∀ (σ : Type) [Host σ] (host : σ),
      runFor p.size (Session.start p none host) = (⟨m, host⟩, some result)) :
    p.RunsTo m result := by
  intro σ _ host limit covered
  have finishes : (Session.start p none host).Finishes ⟨m, host⟩ result := ⟨p.size, ran σ host⟩
  cases limit with
  | none =>
    have unbudgeted : m.budgeted none = m := by rw [Machine.budgeted, ← unlimited]
    rw [finishes.run, unbudgeted]
  | some most => exact run_within finishes.run (covered most rfl)

theorem runsTo_unique (one : p.RunsTo m result) (other : p.RunsTo m' result') :
    result = result' := by
  have first := one Console {} none (by simp)
  rw [other Console {} none (by simp), Option.some.injEq] at first
  exact (congrArg Prod.snd first).symm

theorem straight_ends (path : Straight code {} {} w q) (makes : i.Makes w q w' q')
    (written : p.instructions.toList = code ++ [i]) :
    p.RunsTo (along p p.size w' q') (.ok .endOfStream) := by
  have size : p.size = code.length + 1 := by simp [size_written written]
  apply runsTo_of_runFor rfl
  intro σ _ host
  apply runFor_last path written
  · rw [step_makes host (get_written written) makes, size]
  · simp [progress_along, size, Progress.result?]

theorem straight_crashes (path : Straight code {} {} w q)
    (raises : (along p code.length w q).counted.Raises i cause q')
    (written : p.instructions.toList = code ++ [i]) :
    p.RunsTo (along p code.length w q').counted (.error (.fatal ⟨cause, code.length, i⟩)) := by
  have final : p.get? (code.length + 1) = none := by
    simp [Program.get?, ← Array.getElem?_toList, written]
  apply runsTo_of_runFor rfl
  intro σ _ host
  apply runFor_last path written
  · exact step_fatal host (get_written written) final raises
  · rfl

end Program

namespace Staging

def ring (vs : List Int64) (cursor : Nat) : Wheel :=
  { values := (vs.map Value.integer).toArray, cursor }

def lined (vs : List Int64) : ArgQueue := { back := (vs.map Value.integer).reverse }

variable {vs xs : List Int64} {k : Nat} {v x : Int64}

theorem lined_toList (vs : List Int64) : (lined vs).toList = vs.map .integer := by
  simp [lined, ArgQueue.toList]

theorem lined_push (vs : List Int64) (v : Int64) :
    (lined vs).push (.integer v) = lined (vs ++ [v]) := by
  simp [lined, ArgQueue.push]

theorem ring_push (vs : List Int64) (k : Nat) (v : Int64) :
    (ring vs k).push (.integer v) = ring (vs ++ [v]) k := by
  simp [ring, Wheel.push]

theorem ring_rotate (inside : k + 1 < vs.length) :
    (ring vs k).rotate 1 = .ok (ring vs (k + 1)) := by
  have filled : (ring vs k).isEmpty = false := by
    simp [ring, Wheel.isEmpty, List.length_pos_iff.mp (Nat.zero_lt_of_lt inside)]
  have next : Ring.index k .forward 1 vs.length = k + 1 := by
    have one : (1 : Int64).toInt = 1 := rfl
    simp only [Ring.index, Ring.displacement, Direction.sign, one]
    rw [Int.emod_eq_of_lt] <;> omega
  have size : (ring vs k).size = vs.length := by simp [ring, Wheel.size]
  rw [Wheel.rotate, filled, size]
  exact congrArg (fun cursor => Except.ok (ring vs cursor)) next

theorem ring_current (found : vs[k]? = some v) : (ring vs k).current = .ok (.integer v) := by
  rw [Wheel.current_iff]
  simp [ring, found]

theorem ring_last (x : Int64) (xs : List Int64) (v : Int64) :
    (ring ((x :: xs).dropLast ++ [v]) xs.length).current = .ok (.integer v) :=
  ring_current (by simp)

theorem ring_put (vs : List Int64) (k : Nat) (v : Int64) :
    (ring vs k).put (.integer v) = ring (vs.set k v) k := by
  simp [ring, Wheel.put, List.map_set]

theorem set_last (x : Int64) (xs : List Int64) (v : Int64) :
    (x :: xs).set xs.length v = (x :: xs).dropLast ++ [v] := by
  induction xs generalizing x with
  | nil => rfl
  | cons y xs ih => exact congrArg (x :: ·) (ih y)

def append (v : Int64) : Instruction := { opcode := .newv, int := v }

def forward : Instruction := { opcode := .movvw, int := 1 }

def enqueue : Instruction := { opcode := .addarg }

theorem append_makes (vs : List Int64) (k : Nat) (q : ArgQueue) (v : Int64) :
    (append v).Makes (ring vs k) q (ring (vs ++ [v]) k) q := by
  intro m wheel queue
  rw [← ring_push, ← wheel, ← queue]
  rfl

theorem forward_makes (inside : k + 1 < vs.length) (q : ArgQueue) :
    forward.Makes (ring vs k) q (ring vs (k + 1)) q := by
  intro m wheel queue
  have moved : m.wheel.rotate 1 = .ok (ring vs (k + 1)) := by rw [wheel, ring_rotate inside]
  have performed : m.perform forward = m.withWheel forward (m.wheel.rotate 1) := rfl
  rw [performed, moved, ← queue]
  rfl

theorem enqueue_makes {w : Wheel} {v : Value} (under : w.current = .ok v) (q : ArgQueue) :
    enqueue.Makes w q w (q.push v) := by
  intro m wheel queue
  rw [← wheel] at under
  simp only [Machine.perform, enqueue, under]
  rw [← wheel, ← queue]
  rfl

def stage (v : Int64) : List Instruction := [append v, forward, enqueue]

theorem stage_straight (last : k + 1 = vs.length) (v : Int64) :
    Straight (stage v) (ring vs k) (lined vs) (ring (vs ++ [v]) (k + 1)) (lined (vs ++ [v])) := by
  have inside : k + 1 < (vs ++ [v]).length := by
    rw [List.length_append, List.length_singleton]
    omega
  have found : (vs ++ [v])[k + 1]? = some v := by simp [last]
  rw [← lined_push]
  exact .next (append_makes vs k _ v) (.next (forward_makes inside _)
    (.next (enqueue_makes (ring_current found) _) (.done _ _)))

theorem stages_straight (xs : List Int64) (last : k + 1 = vs.length) :
    Straight (xs.flatMap stage) (ring vs k) (lined vs) (ring (vs ++ xs) (k + xs.length))
      (lined (vs ++ xs)) := by
  induction xs generalizing vs k with
  | nil =>
    rw [List.append_nil]
    exact .done _ _
  | cons x xs ih =>
    have later := @ih (vs ++ [x]) (k + 1) (by rw [List.length_append, List.length_singleton, last])
    rw [List.append_assoc, List.singleton_append, Nat.add_right_comm] at later
    exact (stage_straight last x).append later

theorem appends_straight (vs xs : List Int64) (k : Nat) (q : ArgQueue) :
    Straight (xs.map append) (ring vs k) q (ring (vs ++ xs) k) q := by
  induction xs generalizing vs with
  | nil =>
    rw [List.append_nil]
    exact .done _ _
  | cons x xs ih =>
    have later := ih (vs ++ [x])
    rw [List.append_assoc, List.singleton_append] at later
    exact .next (append_makes vs k q x) later

/-- The cursor is where the first number will be, so that one needs no move. -/
def staging : List Int64 → List Instruction
  | [] => []
  | x :: xs => append x :: enqueue :: xs.flatMap stage

theorem staging_straight (x : Int64) (xs : List Int64) :
    Straight (staging (x :: xs)) {} {} (ring (x :: xs) xs.length) (lined (x :: xs)) := by
  have first : (ring [x] 0).current = .ok (.integer x) := ring_current rfl
  have later := stages_straight xs (show 0 + 1 = [x].length from rfl)
  rw [Nat.zero_add] at later
  exact .next (append_makes [] 0 _ x) (.next (enqueue_makes first _) later)

end Staging

namespace Arithmetic

open Staging

variable {a : Arithmetic} {w : Wheel} {vs xs : List Int64} {x : Int64} {old : Value}

def operate : Arithmetic → Int64 → Int64 → Int64
  | .add => (· + ·)
  | .sub => (· - ·)
  | .mul => (· * ·)
  | .div => (· / ·)

theorem integers_map (flaw : Value → Fault) (xs : List Int64) :
    integers flaw (xs.map .integer) = .ok xs := by
  induction xs with
  | nil => rfl
  | cons x xs ih => simp [integers, ih]

/-- All operations fold from the left, also those that start from a unit. -/
theorem ofQueued_operate (sound : a = .div → 0 ∉ xs) :
    a.ofQueued (x :: xs) = .ok (.integer (xs.foldl a.operate x)) := by
  cases a with
  | add => simp [ofQueued, sum, operate]
  | sub => rfl
  | mul => simp [ofQueued, product, operate]
  | div => simp [ofQueued, quotient, sound rfl, Except.map, operate]

def claiming (a : Arithmetic) (count : Nat) : Instruction :=
  { opcode := a.opcode, int := Int64.ofNat count, args := true }

def gathering (a : Arithmetic) : Instruction := { opcode := a.opcode }

theorem compute_lined (filled : vs ≠ []) (short : vs.length < 9223372036854775808) :
    ∃ rest, a.compute (a.claiming vs.length) w (lined vs) = (a.ofQueued vs, rest) ∧
      rest.toList = [] := by
  have count : (a.claiming vs.length).int.toInt = vs.length := Int64.toInt_ofNat_of_lt short
  have some := List.length_pos_iff.mpr filled
  have natural : ¬ (a.claiming vs.length).int < 0 := by
    rw [Int64.lt_iff_toInt_lt, count]
    simp
  have nonzero : (a.claiming vs.length).int ≠ 0 := by
    intro zero
    rw [zero] at count
    simp at count
    omega
  have enough : ¬ ((a.claiming vs.length).int = 0 ∧ a ≠ .add ∨
      ((lined vs).toList.length : Int) < (a.claiming vs.length).int.toInt) := by
    rw [count, lined_toList, List.length_map]
    simp [nonzero]
  obtain ⟨rest, claimed, left, _⟩ := claim_enough natural enough
  rw [count, lined_toList, Int.toNat_natCast] at claimed left
  refine ⟨rest, compute_fit rfl claimed ?_, ?_⟩
  · rw [List.take_of_length_le (by simp), integers_map]
  · rw [left, List.drop_of_length_le (by simp)]

theorem compute_ring (other : a ≠ .div) (filled : vs ≠ []) (k : Nat) (q : ArgQueue) :
    a.compute a.gathering (ring vs k) q = (a.ofQueued vs, q) := by
  have some : (ring vs k).isEmpty = false := by simp [ring, Wheel.isEmpty, filled]
  rw [compute_whole rfl (by simp [gathering]), overWheel, some]
  simp only [ring, Bool.false_eq_true, ↓reduceIte, integers_map]
  cases a with
  | div => exact absurd rfl other
  | add | sub | mul => rfl

theorem compute_makes {i : Instruction} {v : Value} {q rest : ArgQueue} (op : i.opcode = a.opcode)
    (computed : a.compute i w q = (.ok v, rest)) (under : w.current = .ok old) :
    i.Makes w q (w.put v) rest := by
  intro m wheel queue
  rw [← wheel] at computed under ⊢
  rw [← queue] at computed
  exact Machine.perform_stores op computed under

end Arithmetic

namespace Program

open Staging Machine Session

variable {a : Arithmetic} {x : Int64} {xs : List Int64}

def staged (a : Arithmetic) (vs : List Int64) : Program :=
  ⟨(staging vs ++ [a.claiming vs.length]).toArray⟩

def appended (a : Arithmetic) (vs : List Int64) : Program :=
  ⟨(vs.map append ++ [a.gathering]).toArray⟩

theorem staged_written (a : Arithmetic) (vs : List Int64) :
    (staged a vs).instructions.toList = staging vs ++ [a.claiming vs.length] := rfl

theorem appended_written (a : Arithmetic) (vs : List Int64) :
    (appended a vs).instructions.toList = vs.map append ++ [a.gathering] := rfl

theorem count_fits (fits : ((x :: xs).length : Int) ≤ Int64.maxValue.toInt) :
    (x :: xs).length < 9223372036854775808 := by
  have most : Int64.maxValue.toInt = 9223372036854775807 := rfl
  omega

theorem staged_ends (sound : a = .div → 0 ∉ xs)
    (fits : ((x :: xs).length : Int) ≤ Int64.maxValue.toInt) :
    ∃ m, (staged a (x :: xs)).RunsTo m (.ok .endOfStream) ∧ m.queue.toList = [] ∧
      m.wheel = ring ((x :: xs).dropLast ++ [xs.foldl a.operate x]) xs.length := by
  obtain ⟨rest, computed, left⟩ :=
    a.compute_lined (w := ring (x :: xs) xs.length) (List.cons_ne_nil x xs) (count_fits fits)
  rw [Arithmetic.ofQueued_operate sound] at computed
  have under : (ring (x :: xs) xs.length).current = _ :=
    ring_current (List.getElem?_eq_getElem (by simp))
  have makes := Arithmetic.compute_makes rfl computed under
  rw [ring_put, set_last] at makes
  exact ⟨_, straight_ends (staging_straight x xs) makes (staged_written a _), left, rfl⟩

theorem staged_crashes (zero : 0 ∈ xs)
    (fits : ((x :: xs).length : Int) ≤ Int64.maxValue.toInt) :
    ∃ m crash, (staged .div (x :: xs)).RunsTo m (.error (.fatal crash)) ∧
      crash.cause = .divisionByZero ∧ m.wheel = ring (x :: xs) xs.length := by
  obtain ⟨rest, computed, _⟩ := Arithmetic.compute_lined (a := .div)
    (w := ring (x :: xs) xs.length) (List.cons_ne_nil x xs) (count_fits fits)
  have divided : Arithmetic.ofQueued .div (x :: xs) = .error .divisionByZero := by
    simp [Arithmetic.ofQueued, Arithmetic.quotient, zero, Except.map]
  rw [divided] at computed
  have crashes := straight_crashes (staging_straight x xs) (raises_of_compute rfl computed)
    (staged_written .div _)
  exact ⟨_, _, crashes, rfl, rfl⟩

theorem appended_ends (other : a ≠ .div) :
    ∃ m, (appended a (x :: xs)).RunsTo m (.ok .endOfStream) ∧
      m.wheel = ring (xs.foldl a.operate x :: xs) 0 := by
  have computed := Arithmetic.compute_ring other (List.cons_ne_nil x xs) 0 {}
  rw [Arithmetic.ofQueued_operate (fun same => absurd same other)] at computed
  have makes := Arithmetic.compute_makes rfl computed (ring_current rfl)
  rw [ring_put, List.set_cons_zero] at makes
  exact ⟨_, straight_ends (appends_straight [] (x :: xs) 0 {}) makes (appended_written a _), rfl⟩

end Program

open Program Staging in
/-- Numbers that are staged in the queue and claimed from it give what they give on the wheel, as
many as an argument can count. The quotient of integers is for the queue alone, and it needs divisors
that are not zero. -/
theorem queue_and_wheel_agree (x : Int64) (xs : List Int64)
    (fits : ((x :: xs).length : Int) ≤ Int64.maxValue.toInt) :
    (∀ a : Arithmetic, a ≠ .div → ∃ m m',
      (staged a (x :: xs)).RunsTo m (.ok .endOfStream) ∧
      (appended a (x :: xs)).RunsTo m' (.ok .endOfStream) ∧
      m.wheel.current = .ok (.integer (xs.foldl a.operate x)) ∧
      m'.wheel.current = .ok (.integer (xs.foldl a.operate x)) ∧
      m.queue.toList = [] ∧
      m.wheel.values.toList =
        (x :: xs).dropLast.map .integer ++ [.integer (xs.foldl a.operate x)]) ∧
    ((∃ m, (staged .div (x :: xs)).RunsTo m (.ok .endOfStream) ∧
      m.wheel.current = .ok (.integer (xs.foldl (· / ·) x))) ↔ 0 ∉ xs) ∧
    (0 ∈ xs → ∃ m crash, (staged .div (x :: xs)).RunsTo m (.error (.fatal crash)) ∧
      crash.cause.kind = .divisionByZero ∧ m.wheel.values.toList = (x :: xs).map .integer) := by
  refine ⟨?_, ⟨?_, ?_⟩, ?_⟩
  · intro a other
    obtain ⟨m, ends, empty, wheel⟩ := staged_ends (fun same => absurd same other) fits
    obtain ⟨m', ends', wheel'⟩ := appended_ends other
    refine ⟨m, m', ends, ends', ?_, ?_, empty, ?_⟩
    · rw [wheel, ring_last]
    · rw [wheel', ring_current rfl]
    · simp [wheel, ring]
  · rintro ⟨m, ends, _⟩ zero
    obtain ⟨_, _, crashes, _⟩ := staged_crashes zero fits
    cases runsTo_unique ends crashes
  · intro sound
    obtain ⟨m, ends, _, wheel⟩ := staged_ends (fun _ => sound) fits
    refine ⟨m, ends, ?_⟩
    rw [wheel, ring_last]
    rfl
  · intro zero
    obtain ⟨m, crash, crashes, cause, wheel⟩ := staged_crashes zero fits
    refine ⟨m, crash, crashes, ?_, ?_⟩
    · rw [cause]
      rfl
    · simp [wheel, ring]

open Program in
theorem least_integer_staged :
    ([Int64.minValue, 1, 0].length : Int) ≤ Int64.maxValue.toInt ∧
    (∃ m m', (staged .sub [Int64.minValue, 1, 0]).RunsTo m (.ok .endOfStream) ∧
      (appended .sub [Int64.minValue, 1, 0]).RunsTo m' (.ok .endOfStream) ∧
      m.wheel.current = .ok (.integer Int64.maxValue) ∧
      m'.wheel.current = .ok (.integer Int64.maxValue) ∧ m.queue.toList = [] ∧
      m.wheel.values.toList = [.integer Int64.minValue, .integer 1, .integer Int64.maxValue]) ∧
    (∃ m crash, (staged .div [Int64.minValue, 1, 0]).RunsTo m (.error (.fatal crash)) ∧
      crash.cause.kind = .divisionByZero ∧
      m.wheel.values.toList = [.integer Int64.minValue, .integer 1, .integer 0]) ∧
    ∃ m, (staged .div [Int64.minValue, -1]).RunsTo m (.ok .endOfStream) ∧
      m.wheel.current = .ok (.integer Int64.minValue) := by
  have fits : ([Int64.minValue, 1, 0].length : Int) ≤ Int64.maxValue.toInt := by decide
  obtain ⟨agree, _, crash⟩ := queue_and_wheel_agree Int64.minValue [1, 0] fits
  obtain ⟨_, divides, _⟩ := queue_and_wheel_agree Int64.minValue [-1] (by decide)
  exact ⟨fits, agree .sub (by decide), crash (by decide), divides.mpr (by decide)⟩

end Wheelwork
