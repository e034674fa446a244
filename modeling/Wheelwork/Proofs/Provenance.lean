import Wheelwork.Proofs.Budget
import Wheelwork.Proofs.Conservation

/-!
Where values come from. A move keeps the values that stand on wheels and wait in the queue, copies
some of them, and makes at most one: a literal, a result or an input. Of these only the ratio of a
whole wheel is a float, so every float of a run was stored by a division of that kind.
-/
namespace Wheelwork

namespace Wheel

variable {w w' : Wheel} {v : Value}

theorem current_mem (under : w.current = .ok v) : v ∈ w.values := by
  unfold current at under
  split at under
  · rename_i u found
    obtain rfl : u = v := by simpa using under
    exact Array.mem_of_getElem? found
  · simp at under

theorem put_current (under : w.current = .ok v) (result : Value) :
    (w.put result).current = .ok result := by
  unfold current at under
  split at under
  · rename_i u found
    have inside : w.cursor < w.values.size := (Array.getElem?_eq_some_iff.mp found).1
    simp [current, put, inside]
  · simp at under

theorem rotate_values {steps : Int64} (moved : w.rotate steps = .ok w') : w'.values = w.values := by
  unfold rotate at moved
  split at moved
  · simp at moved
  · simp only [Except.ok.injEq] at moved
    subst moved
    rfl

end Wheel

theorem Value.ofInput_not_float (line : String) (x : Float) : ofInput line ≠ .float x := by
  unfold ofInput
  simp only
  split <;> simp

namespace Arithmetic

variable {a : Arithmetic} {i : Instruction} {w : Wheel} {q rest : ArgQueue} {x : Float}

theorem ofQueued_not_float (a : Arithmetic) (xs : List Int64) (x : Float) :
    a.ofQueued xs ≠ .ok (.float x) := by
  cases a with
  | add => simp [ofQueued]
  | sub => cases given : difference xs <;> simp [ofQueued, given, Except.map]
  | mul => simp [ofQueued]
  | div => cases given : quotient xs <;> simp [ofQueued, given, Except.map]

theorem overWheel_float (computed : a.overWheel w = .ok (.float x)) : a = .div := by
  unfold overWheel at computed
  split at computed
  · simp at computed
  · split at computed
    · rename_i xs _
      cases a with
      | div => rfl
      | add => exact absurd computed (ofQueued_not_float .add xs x)
      | sub => exact absurd computed (ofQueued_not_float .sub xs x)
      | mul => exact absurd computed (ofQueued_not_float .mul xs x)
    · simp at computed

theorem compute_float (computed : a.compute i w q = (.ok (.float x), rest)) :
    a = .div ∧ i.args = false ∧ overWheel .div w = .ok (.float x) := by
  unfold compute at computed
  split at computed
  · -- queued arguments give integers only
    split at computed
    · simp at computed
    · split at computed
      · rename_i xs _
        exact absurd (congrArg Prod.fst computed) (ofQueued_not_float a xs x)
      · simp at computed
  · rename_i args
    have direct : a.direct i w = .ok (.float x) := congrArg Prod.fst computed
    have whole : a.overWheel w = .ok (.float x) := by
      unfold Arithmetic.direct at direct
      split at direct
      · split at direct
        · cases under : w.currentInteger <;> simp [under, Except.map] at direct
        · exact direct
      · exact direct
    obtain rfl := overWheel_float whole
    exact ⟨rfl, by simpa using args, whole⟩

end Arithmetic

namespace Machine

variable {m m' : Machine} {i : Instruction} {v : Value}

def Holds (m : Machine) (v : Value) : Prop :=
  (∃ w ∈ m.frames.toList, v ∈ w.values) ∨ v ∈ m.queue.toList

/-- The values that an instruction makes; a result goes under the cursor of the active wheel. -/
inductive Made (m : Machine) (i : Instruction) (m' : Machine) : Value → Prop where
  | literal (op : i.opcode = .newv) :
      Made m i m' (if i.hasText then .text i.text else .integer i.int)
  | result {a : Arithmetic} {v : Value} {q : ArgQueue} (op : i.opcode = a.opcode)
      (computed : a.compute i m.wheel m.queue = (.ok v, q)) (stored : m'.wheel.current = .ok v) :
      Made m i m' v
  | input (line : String) (op : i.opcode = .inp) : Made m i m' (.ofInput line)

theorem holds_wheel (member : v ∈ m.wheel.values) : m.Holds v :=
  .inl ⟨m.wheel, List.mem_cons_self, member⟩

theorem Move.queued (moved : Move m i m') (seated : m.wheel.Seated)
    (queued : v ∈ m'.queue.toList) : m.Holds v := by
  rcases moved.queue seated with ⟨_, u, under, added⟩ | ⟨count, ⟨_, left⟩, _⟩
  · rw [added, List.mem_append, List.mem_singleton] at queued
    rcases queued with old | rfl
    · exact .inr old
    · exact holds_wheel (Wheel.current_mem under)
  · rw [left] at queued
    exact .inr (List.mem_of_mem_drop queued)

theorem Works.held {w : Wheel} {q : ArgQueue} (done : Works m i w q) (member : v ∈ w.values) :
    v ∈ m.wheel.values ∨ Made m i (m.having w q).advance v := by
  cases done with
  | pass | reverse | stage | compare | wait => exact .inl member
  | append op =>
    rcases Array.mem_push.mp member with old | rfl
    · exact .inl old
    · exact .inr (.literal op)
  | rotate _ moved => exact .inl (Wheel.rotate_values moved ▸ member)
  | @compute a u _ _ op computed under =>
    rcases Array.mem_or_eq_of_mem_setIfInBounds member with old | rfl
    · exact .inl old
    · exact .inr (.result op computed (Wheel.put_current under v))
  | answer op =>
    rcases Array.mem_or_eq_of_mem_setIfInBounds member with old | rfl
    · exact .inl old
    · exact .inr (.input _ op)

theorem remaining_subset (m : Machine) : m.remaining.toList ⊆ m.frames.toList := by
  intro w member
  unfold remaining Frames.pop? at member
  cases frames : m.frames.below with
  | nil => simpa [frames] using member
  | cons next below =>
    simp only [frames] at member
    apply List.mem_cons_of_mem
    rw [frames]
    exact member

theorem Move.held (moved : Move m i m') (seated : m.wheel.Seated) (held : m'.Holds v) :
    m.Holds v ∨ Made m i m' v := by
  rcases held with ⟨w, frame, member⟩ | queued
  · cases moved with
    | stay | steer | jump | skip | crash | recover | miss => exact .inl (.inl ⟨w, frame, member⟩)
    | work done =>
      rcases List.mem_cons.mp frame with rfl | below
      · rcases done.held member with old | made
        · exact .inl (holds_wheel old)
        · exact .inr made
      · exact .inl (.inl ⟨w, List.mem_cons_of_mem _ below, member⟩)
    | enter _ _ _ drained =>
      obtain ⟨_, taken, _⟩ := ArgQueue.drain_ok drained
      rcases List.mem_cons.mp frame with rfl | below
      · have queued := List.mem_toArray.mp member
        rw [taken] at queued
        exact .inl (.inr (List.mem_of_mem_take queued))
      · exact .inl (.inl ⟨w, below, member⟩)
    | leave => exact .inl (.inl ⟨w, m.remaining_subset frame, member⟩)
  · exact .inl (moved.queued seated queued)

theorem Made.float {x : Float} (made : Made m i m' (.float x)) :
    i.opcode = .div ∧ i.args = false ∧ Arithmetic.overWheel .div m.wheel = .ok (.float x) ∧
      m'.wheel.current = .ok (.float x) := by
  generalize same : Value.float x = v at made
  cases made with
  | literal => split at same <;> simp at same
  | result op computed stored =>
    subst same
    obtain ⟨rfl, args, ratio⟩ := Arithmetic.compute_float computed
    exact ⟨op, args, ratio, stored⟩
  | input line => exact absurd same.symm (Value.ofInput_not_float line x)

end Machine

namespace Session

variable {σ : Type} [Host σ] {s : Session σ} {x : Float}

/-- The next step divides the values of the whole active wheel, not queued ones, and puts the ratio
under the cursor. -/
def StoresRatio (s : Session σ) (x : Float) : Prop :=
  ∃ i, s.machine.Dispatches i ∧ i.opcode = .div ∧ i.args = false ∧
    Arithmetic.overWheel .div s.machine.wheel = .ok (.float x) ∧
    s.step.1.machine.wheel.current = .ok (.float x)

theorem step_float (wf : s.machine.WellFormed) (held : s.step.1.machine.Holds (.float x)) :
    s.machine.Holds (.float x) ∨ s.StoresRatio x := by
  rcases step_cases s with same | ⟨i, dispatches, moved⟩
  · rw [same] at held
    exact .inl held
  · rcases moved.held wf.counted.top held with old | made
    · exact .inl old
    · exact .inr ⟨i, dispatches, made.float⟩

theorem after_float (begun : s.machine.WellFormed) (none : ∀ x, ¬ s.machine.Holds (.float x))
    (n : Nat) (held : (s.after n).machine.Holds (.float x)) :
    ∃ k < n, (s.after k).StoresRatio x := by
  induction n with
  | zero => exact absurd held (none x)
  | succ n ih =>
    rcases step_float (after_well_formed begun n) held with old | stores
    · obtain ⟨k, earlier, stores⟩ := ih old
      exact ⟨k, Nat.lt_succ_of_lt earlier, stores⟩
    · exact ⟨n, Nat.lt_succ_self n, stores⟩

theorem after_program (s : Session σ) (n : Nat) :
    (s.after n).machine.program = s.machine.program := by
  let keep : Machine → Prop := fun m => m.program = s.machine.program
  have moves : ∀ {m m' i}, m.Dispatches i → Machine.Move m.counted i m' → keep m → keep m' := by
    intro m m' i _ moved same
    exact moved.steps.2.2.trans same
  exact after_keeps moves rfl n

/-- In every state of every run, each float on a wheel or in the queue was stored by a division of a
whole wheel in an earlier step. So there are none in the runs of a program that divides queued
values only, whatever its input. -/
theorem floats_come_from_division (program : Program) (limit : Option Nat) (host : σ) (n : Nat) :
    let fresh := start program limit host
    (∀ x, (fresh.after n).machine.Holds (.float x) → ∃ k < n, (fresh.after k).StoresRatio x) ∧
      ((∀ i ∈ program.instructions, i.opcode = .div → i.args = true) →
        ∀ x, ¬ (fresh.after n).machine.Holds (.float x)) := by
  intro fresh
  have begun : fresh.machine.WellFormed := Machine.start_well_formed program limit
  have none : ∀ x, ¬ fresh.machine.Holds (.float x) := by
    intro x held
    simp [fresh, start, Machine.start, Machine.Holds, Frames.toList, ArgQueue.toList] at held
  refine ⟨fun x held => after_float begun none n held, ?_⟩
  intro queued x held
  obtain ⟨k, _, i, dispatches, op, args, _⟩ := after_float begun none n held
  have member : i ∈ program.instructions := by
    have current := dispatches.1
    rw [after_program] at current
    exact Array.mem_of_getElem? current
  have marked := queued i member op
  rw [args] at marked
  cases marked

def handedRatio : Program :=
  ⟨#[{ opcode := .define, text := "f" }, { opcode := .ret }, { opcode := .newv, int := 7 },
    { opcode := .div }, { opcode := .addarg }, { opcode := .call, int := 1, text := "f" }]⟩

def queuedQuotient : Program :=
  ⟨#[{ opcode := .newv, int := 7 }, { opcode := .addarg }, { opcode := .inp },
    { opcode := .div, int := 1, args := true }]⟩

theorem handed_ratio_stored :
    ((start handedRatio none ({} : Console)).after 5).machine.frames.active.values =
        #[.float (Int64.toFloat 7)] ∧
      (∃ k < 5, ((start handedRatio none ({} : Console)).after k).StoresRatio (Int64.toFloat 7)) ∧
      ((start queuedQuotient none ({ input := ["1.5"] } : Console)).after 3).machine.wheel.values =
        #[.text "1.5"] ∧
      ∀ n x, ¬ ((start queuedQuotient none ({ input := ["1.5"] } : Console)).after n).machine.Holds
        (.float x) := by
  have values : ((start handedRatio none ({} : Console)).after 5).machine.frames.active.values =
      #[.float (Int64.toFloat 7)] := rfl
  have handed : ((start handedRatio none ({} : Console)).after 5).machine.Holds
      (.float (Int64.toFloat 7)) := by
    apply Machine.holds_wheel
    rw [Machine.wheel, values]
    exact List.mem_toArray.mpr List.mem_cons_self
  have queued : ∀ i ∈ queuedQuotient.instructions, i.opcode = .div → i.args = true := by
    simp [queuedQuotient]
  refine ⟨values, (floats_come_from_division handedRatio none ({} : Console) 5).1 _ handed, ?_, ?_⟩
  · with_unfolding_all rfl
  · intro n
    exact (floats_come_from_division queuedQuotient none
      ({ input := ["1.5"] } : Console) n).2 queued

end Session
end Wheelwork
