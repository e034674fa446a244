import Wheelwork.Proofs.Unread

/-!
Views are transparent. The instructions that show the queue, a wheel or the program write lines and
change nothing else, and neither does an instruction that writes a text of its own. So on hosts that
take every line and do not heed it, a program in which some of the former are replaced by the latter
is run in lockstep with the program as it was.
-/
namespace Wheelwork

def Opcode.views : List Opcode := [.argview, .dbgprintv, .dbgprintc]

/-- The second instruction is the first, or it writes a text in the place of a view. -/
def Instruction.Replaced (i j : Instruction) : Prop :=
  i = j ∨ i.opcode ∈ Opcode.views ∧ j.opcode = .out ∧ j.text ≠ ""

namespace Program

structure Replaced (p q : Program) : Prop where
  size : p.size = q.size
  each : ∀ {n i j}, p.get? n = some i → q.get? n = some j → i.Replaced j

variable {p q : Program}

theorem Replaced.lookup (replaced : p.Replaced q) (n : Nat) :
    p.get? n = none ∧ q.get? n = none ∨
      ∃ i j, p.get? n = some i ∧ q.get? n = some j ∧ i.Replaced j := by
  cases one : p.get? n with
  | none =>
    have beyond : q.size ≤ n := replaced.size ▸ Array.getElem?_eq_none_iff.mp one
    exact .inl ⟨rfl, Array.getElem?_eq_none_iff.mpr beyond⟩
  | some i =>
    have within : n < q.size := replaced.size ▸ (Array.getElem?_eq_some_iff.mp one).1
    have other : q.get? n = some _ := Array.getElem?_eq_getElem within
    exact .inr ⟨i, _, rfl, other, replaced.each one other⟩

end Program

namespace Instruction

def muted (i : Instruction) : Instruction :=
  if i.opcode ∈ Opcode.writers then { opcode := .out } else i

variable {i j : Instruction}

theorem Replaced.muted (replaced : i.Replaced j) : i.muted = j.muted := by
  rcases replaced with rfl | ⟨view, out, _⟩
  · rfl
  · have shows : i.opcode ∈ Opcode.writers := List.mem_cons_of_mem _ view
    have writes : j.opcode ∈ Opcode.writers := by simp [out, Opcode.writers]
    simp only [Instruction.muted, shows, writes, ↓reduceIte]

theorem muted_opcode {op : Opcode} (silent : op ∉ Opcode.writers) :
    i.muted.opcode = op ↔ i.opcode = op := by
  unfold muted
  split
  · rename_i writes
    constructor
    · rintro rfl
      simp [Opcode.writers] at silent
    · rintro rfl
      exact absurd writes silent
  · rfl

theorem muted_of_opcode {op : Opcode} (silent : op ∉ Opcode.writers) (named : i.opcode = op) :
    i.muted = i := by
  subst named
  simp only [muted, silent, ↓reduceIte]

end Instruction

namespace Program

variable {p q : Program}

def muted (p : Program) : Program := ⟨p.instructions.map Instruction.muted⟩

theorem Replaced.muted (replaced : p.Replaced q) : p.muted = q.muted := by
  have arrays : p.instructions.map Instruction.muted = q.instructions.map Instruction.muted := by
    apply map_eq replaced.size
    intro n i j one other
    exact (replaced.each one other).muted
  exact congrArg Program.mk arrays

theorem functions_muted (p : Program) : FunctionTable.ofProgram p.muted = .ofProgram p := by
  have silent : Opcode.define ∉ Opcode.writers := by decide
  have insert : ∀ (t : FunctionTable) (i : Instruction) (index : Nat),
      t.insertDefinition i.muted index = t.insertDefinition i index := by
    intro t i index
    unfold FunctionTable.insertDefinition
    simp only [Instruction.muted_opcode silent]
    split
    · rename_i named
      rw [Instruction.muted_of_opcode silent named]
    · rfl
  simp only [FunctionTable.ofProgram, muted, Array.toList_map, List.zipIdx_map, List.foldl_map,
    Prod.map_fst, Prod.map_snd, id_eq, insert]

theorem handler_muted (p : Program) (n : Nat) : p.muted.handler? n = p.handler? n := by
  have silent : Opcode.errh ∉ Opcode.writers := by decide
  simp only [handler?, get?, muted, Array.getElem?_map]
  cases p.instructions[n]? with
  | none => rfl
  | some i =>
    simp only [Option.map_some, Instruction.muted_opcode silent]
    split
    · rename_i named
      rw [Instruction.muted_of_opcode silent named]
    · rfl

end Program

def Recast.onto (q : Program) : Recast := { program := fun _ => q }

theorem Progress.recast_onto (q : Program) (p : Progress) : p.recast (.onto q) = p := by
  rcases p with _ | exit | ⟨crash | limit | error⟩ <;> rfl

namespace Machine

open Recast (onto)

variable {m : Machine} {i j : Instruction} {p q : Program}

theorem afterReturn_muted (m : Machine) :
    (m.recast (onto m.program.muted)).afterReturn? = m.afterReturn? := by
  have silent : Opcode.ret ∉ Opcode.writers := by decide
  simp only [afterReturn?, recast, onto, Program.muted, Array.toList_map, ← List.map_drop,
    List.findIdx?_map, Function.comp_def, Instruction.muted_opcode silent]

theorem handler_replaced (replaced : m.program.Replaced q) (n : Nat) :
    q.handler? n = m.program.handler? n := by
  rw [← Program.handler_muted, ← replaced.muted, Program.handler_muted]

theorem afterReturn_replaced (replaced : m.program.Replaced q) :
    (m.recast (onto q)).afterReturn? = m.afterReturn? := by
  have one := afterReturn_muted m
  have other := afterReturn_muted (m.recast (onto q))
  rw [replaced.muted] at one
  rw [← one, ← other]
  rfl

theorem dispatch_view (view : i.opcode ∈ Opcode.views) :
    ∃ lines, m.dispatch i = .print lines m.counted := by
  simp only [Opcode.views, List.mem_cons, List.not_mem_nil, or_false] at view
  unfold dispatch perform
  rcases view with op | op | op
  · simp only [op]
    exact ⟨_, rfl⟩
  · simp only [op]
    exact ⟨_, rfl⟩
  · simp only [op]
    exact ⟨_, rfl⟩

theorem dispatch_out (op : i.opcode = .out) (text : i.text ≠ "") :
    m.dispatch i = .print [i.text] m.counted := by
  have written : i.hasText = true := by simpa [Instruction.hasText] using text
  unfold dispatch perform
  simp only [op, out, written, ↓reduceIte]
  rfl

/-- What comes to the same under the second program, or writes lines under both. -/
def Parallel (q : Program) (m : Machine) (e e' : Effect) : Prop :=
  e' = e.recast (onto q) ∨
    ∃ lines lines', e = .print lines m ∧ e' = .print lines' (m.recast (onto q))

theorem dispatch_replaced (replaced : m.program.Replaced q) (instruction : i.Replaced j) :
    Parallel q m.counted (m.dispatch i) ((m.recast (onto q)).dispatch j) := by
  rcases instruction with rfl | ⟨view, out, text⟩
  · by_cases view : i.opcode ∈ Opcode.views
    -- The program as it is shown is not the same.
    · obtain ⟨lines, one⟩ := dispatch_view (m := m) view
      obtain ⟨lines', other⟩ := dispatch_view (m := m.recast (onto q)) view
      exact .inr ⟨lines, lines', one, other⟩
    · have shown : i.opcode = .dbgprintc → (m.recast (onto q)).renderProgram = m.renderProgram := by
        intro op
        simp [op, Opcode.views] at view
      exact .inl (dispatch_recast (r := onto q) m ⟨rfl, rfl, rfl, rfl⟩ replaced.size.symm
        (afterReturn_replaced replaced) shown (handler_replaced replaced _))
  · obtain ⟨lines, one⟩ := dispatch_view (m := m) view
    exact .inr ⟨lines, [j.text], one, dispatch_out out text⟩

theorem turn_replaced (replaced : m.program.Replaced q) :
    Parallel q m.counted m.turn (m.recast (onto q)).turn := by
  have program : (m.recast (onto q)).program = q := rfl
  have cursor : (m.recast (onto q)).cursor = m.cursor := rfl
  have limit : (m.recast (onto q)).limit = m.limit := rfl
  have steps : (m.recast (onto q)).steps = m.steps := rfl
  simp only [turn, program, cursor, limit, steps]
  rcases replaced.lookup m.cursor with ⟨one, other⟩ | ⟨i, j, one, other, instruction⟩
  · rw [one, other]
    exact .inl rfl
  · rw [one, other]
    cases m.limit with
    | none => exact dispatch_replaced replaced instruction
    | some limit =>
      simp only
      split
      · exact .inl rfl
      · exact dispatch_replaced replaced instruction

theorem start_replaced (replaced : p.Replaced q) (limit : Option Nat) :
    start q limit = (start p limit).recast (onto q) := by
  have functions : FunctionTable.ofProgram q = .ofProgram p := by
    rw [← Program.functions_muted, ← replaced.muted, Program.functions_muted]
  simp [start, recast, onto, functions]

end Machine

namespace Host

variable {σ τ : Type} [Host σ] [Host τ]

/-- Hosts that are so related take every line, and stay so related whatever lines are written on
either; but for the lines they behave the same. -/
structure Indifferent (R : σ → τ → Prop) : Prop where
  writeLeft : ∀ {h k}, R h k → ∀ line, (writeLine line h).1 = .ok () ∧ R (writeLine line h).2 k
  writeRight : ∀ {h k}, R h k → ∀ line, (writeLine line k).1 = .ok () ∧ R h (writeLine line k).2
  read : ∀ {h k}, R h k →
    (readLine h).1.map entered = (readLine k).1.map entered ∧ R (readLine h).2 (readLine k).2
  sleep : ∀ {h k}, R h k → ∀ millis, R (Host.sleep millis h) (Host.sleep millis k)

variable {R : σ → τ → Prop}

theorem Indifferent.alike (hosts : Indifferent R) : Matches R := by
  constructor
  · intro h k begun line
    obtain ⟨taken, next⟩ := hosts.writeLeft begun line
    obtain ⟨taken', last⟩ := hosts.writeRight next line
    exact ⟨taken.trans taken'.symm, last⟩
  · exact hosts.read
  · exact hosts.sleep

theorem writeLines_kept {K : σ → Prop}
    (kept : ∀ {h}, K h → ∀ line, (writeLine line h).1 = .ok () ∧ K (writeLine line h).2) {h : σ}
    (begun : K h) (lines : List String) :
    (writeLines lines h).1 = .ok () ∧ K (writeLines lines h).2 := by
  induction lines generalizing h with
  | nil => exact ⟨rfl, begun⟩
  | cons line lines ih =>
    obtain ⟨taken, next⟩ := kept begun line
    rw [writeLines_cons]
    generalize writeLine line h = written at taken next ⊢
    obtain ⟨result, h'⟩ := written
    obtain rfl : result = .ok () := taken
    exact ih next

theorem Indifferent.writeLines (hosts : Indifferent R) {h : σ} {k : τ} (begun : R h k)
    (lines lines' : List String) :
    (writeLines lines h).1 = .ok () ∧ (writeLines lines' k).1 = .ok () ∧
      R (writeLines lines h).2 (writeLines lines' k).2 := by
  obtain ⟨taken, next⟩ := writeLines_kept (fun begun => hosts.writeLeft begun) begun lines
  obtain ⟨taken', last⟩ := writeLines_kept (fun begun => hosts.writeRight begun) next lines'
  exact ⟨taken, taken', last⟩

end Host

def HostCall.isWrite : HostCall → Bool
  | .write _ => true
  | .read | .sleep _ => false

def Recorded.otherCalls {σ : Type} (r : Recorded σ) : List HostCall := r.calls.filter (!·.isWrite)

theorem recorded_indifferent {σ τ : Type} [Host σ] [Host τ] {R : σ → τ → Prop}
    (hosts : Host.Indifferent R) :
    Host.Indifferent fun (h : Recorded σ) (k : Recorded τ) =>
      h.otherCalls = k.otherCalls ∧ R h.inner k.inner := by
  constructor
  · rintro h k ⟨calls, inner⟩ line
    obtain ⟨taken, next⟩ := hosts.writeLeft inner line
    refine ⟨taken, ?_, next⟩
    simpa [Recorded.otherCalls, Host.writeLine, HostCall.isWrite] using calls
  · rintro h k ⟨calls, inner⟩ line
    obtain ⟨taken, next⟩ := hosts.writeRight inner line
    refine ⟨taken, ?_, next⟩
    simpa [Recorded.otherCalls, Host.writeLine, HostCall.isWrite] using calls
  · rintro h k ⟨calls, inner⟩
    obtain ⟨same, next⟩ := hosts.read inner
    refine ⟨same, ?_, next⟩
    simpa [Recorded.otherCalls, Host.readLine, HostCall.isWrite] using calls
  · rintro h k ⟨calls, inner⟩ millis
    refine ⟨?_, hosts.sleep inner millis⟩
    simpa [Recorded.otherCalls, Host.sleep, HostCall.isWrite] using calls

namespace Session

variable {σ τ : Type} {R : σ → τ → Prop}

/-- The second session is the first under the second program, on a host that stays related. -/
structure Shadows (R : σ → τ → Prop) (q : Program) (s : Session σ) (t : Session τ) : Prop where
  replaced : s.machine.program.Replaced q
  machine : t.machine = s.machine.recast (.onto q)
  host : R s.host t.host

theorem start_replaced {p q : Program} (replaced : p.Replaced q) (limit : Option Nat) {h : σ}
    {k : τ} (begun : R h k) : Shadows R q (start p limit h) (start q limit k) :=
  ⟨replaced, Machine.start_replaced replaced limit, begun⟩

variable [Host σ] [Host τ]

theorem step_print {s : Session σ} {lines : List String} {m : Machine}
    (turned : s.machine.turn = .print lines m)
    (taken : (Host.writeLines lines s.host).1 = .ok ()) :
    s.step = (⟨m.advance, (Host.writeLines lines s.host).2⟩, m.advance.progress) := by
  obtain ⟨m, h⟩ := s
  simp only at turned taken
  simp only [step_mk, turned]
  generalize Host.writeLines lines h = written at taken ⊢
  obtain ⟨result, h'⟩ := written
  obtain rfl : result = .ok () := taken
  rfl

theorem step_replaced (hosts : Host.Indifferent R) {q : Program} {s : Session σ} {t : Session τ}
    (shadows : Shadows R q s t) : Shadows R q s.step.1 t.step.1 ∧ s.step.2 = t.step.2 := by
  obtain ⟨replaced, machine, host⟩ := shadows
  have kept : s.step.1.machine.program.Replaced q := by
    rw [Machine.turn_program (step_leaves s)]
    exact replaced
  rcases Machine.turn_replaced replaced with same | ⟨lines, lines', one, other⟩
  · have stepped := step_recast (s := s) replaced.size.symm (Machine.handler_replaced replaced _) same
    obtain ⟨left, related, result⟩ := step_matches hosts.alike (s := s.recast (.onto q)) (t := t)
      machine.symm host
    rw [stepped] at left related result
    rw [Progress.recast_onto] at result
    exact ⟨⟨kept, left.symm, related⟩, result⟩
  · rw [← machine] at other
    obtain ⟨taken, taken', related⟩ := hosts.writeLines host lines lines'
    have progress := Machine.progress_recast (r := .onto q) (m := s.machine.counted.advance)
      replaced.size.symm
    rw [Progress.recast_onto] at progress
    rw [step_print one taken] at kept ⊢
    rw [step_print other taken']
    exact ⟨⟨kept, rfl, related⟩, progress.symm⟩

theorem after_replaced (hosts : Host.Indifferent R) {q : Program} {s : Session σ} {t : Session τ}
    (shadows : Shadows R q s t) (n : Nat) : Shadows R q (s.after n) (t.after n) := by
  induction n with
  | zero => exact shadows
  | succ n ih => exact (step_replaced hosts ih).1

/-- Some views of a program replaced by instructions that write a text change nothing but the lines
written: after any number of steps the machines are alike, the hosts are still related and have been
asked for the same lines and times, and the next step comes to the same. -/
theorem views_are_transparent (hosts : Host.Indifferent R) {h : σ} {k : τ} (begun : R h k)
    {p q : Program} (replaced : p.Replaced q) (limit : Option Nat) (n : Nat) :
    let s := start p limit h
    let t := start q limit k
    (s.after n).machine.Alike (t.after n).machine ∧ R (s.after n).host (t.after n).host ∧
      (s.recorded.after n).host.otherCalls = (t.recorded.after n).host.otherCalls ∧
      (s.after n).step.2 = (t.after n).step.2 := by
  intro s t
  have shadows := after_replaced hosts (start_replaced replaced limit begun) n
  have recorded := after_replaced (recorded_indifferent hosts)
    (start_replaced (h := { inner := h }) (k := { inner := k }) replaced limit ⟨rfl, begun⟩) n
  have machines : (s.after n).machine.Alike (t.after n).machine := by
    rw [shadows.machine]
    exact ⟨rfl, rfl, rfl, rfl, rfl, rfl, rfl, rfl⟩
  exact ⟨machines, shadows.host, recorded.host.1, (step_replaced hosts shadows).2⟩

def Attuned (c d : Console) : Prop := c.input = d.input ∧ c.sleeps = d.sleeps

theorem attuned_indifferent : Host.Indifferent Attuned := by
  constructor
  · intro c d attuned line
    exact ⟨rfl, attuned⟩
  · intro c d attuned line
    exact ⟨rfl, attuned⟩
  · rintro ⟨output, input, sleeps⟩ ⟨output', _, _⟩ ⟨rfl, rfl⟩
    cases input with
    | nil => exact ⟨rfl, rfl, rfl⟩
    | cons line input => exact ⟨rfl, rfl, rfl⟩
  · rintro c d ⟨input, sleeps⟩ millis
    exact ⟨input, congrArg (·.push millis) sleeps⟩

def watched (first second : Instruction) : Program :=
  ⟨#[{ opcode := .newv, int := 1 }, { opcode := .addarg }, first, { opcode := .del, int := 5 },
    { opcode := .inp }, { opcode := .whldirv, int := 5 }, second]⟩

theorem watched_replaced {i j i' j' : Instruction} (first : i.Replaced i')
    (second : j.Replaced j') : (watched i j).Replaced (watched i' j') := by
  refine ⟨rfl, ?_⟩
  intro n i j one other
  simp only [Program.get?, watched] at one other
  rcases n with _ | _ | _ | _ | _ | _ | _ | n <;> simp at one other <;> subst one <;> subst other
  · exact .inl rfl
  · exact .inl rfl
  · exact first
  · exact .inl rfl
  · exact .inl rfl
  · exact .inl rfl
  · exact second

theorem watched_transparent :
    let p := watched { opcode := .argview } { opcode := .dbgprintc }
    let q := watched { opcode := .out, text := "x" } { opcode := .out, text := "y" }
    let s := start p none ({ input := ["7", "8"] } : Console)
    let t := start q none ({ input := ["7", "8"] } : Console)
    p.Replaced q ∧ Attuned (s.after 5).host (t.after 5).host ∧
      (s.after 5).machine.Alike (t.after 5).machine ∧ (s.after 5).step.2 = (t.after 5).step.2 ∧
      (t.after 5).step.2 = .failed (.fatal ⟨.badDirection 5, 5, { opcode := .whldirv, int := 5 }⟩) ∧
      (t.after 5).host = { output := #["x"], input := ["8"], sleeps := #[5] } ∧
      (s.after 5).host.output = #["1"] := by
  have failed : ((start (watched { opcode := .out, text := "x" } { opcode := .out, text := "y" })
      none ({ input := ["7", "8"] } : Console)).after 5).step.2 =
        .failed (.fatal ⟨.badDirection 5, 5, { opcode := .whldirv, int := 5 }⟩) := by
    with_unfolding_all rfl
  have left : ((start (watched { opcode := .out, text := "x" } { opcode := .out, text := "y" })
      none ({ input := ["7", "8"] } : Console)).after 5).host =
        { output := #["x"], input := ["8"], sleeps := #[5] } := by
    with_unfolding_all rfl
  intro p q s t
  have replaced : p.Replaced q := by
    apply watched_replaced
    · exact .inr ⟨by decide, rfl, by decide⟩
    · exact .inr ⟨by decide, rfl, by decide⟩
  obtain ⟨machines, attuned, _, result⟩ := views_are_transparent attuned_indifferent
    (h := { input := ["7", "8"] }) (k := { input := ["7", "8"] }) ⟨rfl, rfl⟩ replaced none 5
  exact ⟨replaced, attuned, machines, result, failed, left, by decide +kernel⟩

end Session
end Wheelwork
