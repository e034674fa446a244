import Wheelwork.Proofs.WellFormed

/-!
Calls and returns as brackets. From a call until the return that matches it, the frames and the
pending calls of the caller lie untouched under what the callee does; the return brings back the
whole stack and goes on after the call.
-/
namespace Wheelwork

theorem Frames.toList_injective {f g : Frames} (same : f.toList = g.toList) : f = g := by
  cases f
  cases g
  simp_all [toList]

namespace Machine

/-- The call that was made on these stacks, to come back to `target`, has not yet returned. -/
structure Pending (frames : Frames) (calls : List Nat) (target : Nat) (m : Machine) : Prop where
  above : ∃ later, m.calls = later ++ target :: calls
  kept : frames.toList <:+ m.frames.below

structure Returned (frames : Frames) (calls : List Nat) (target : Nat) (m : Machine) : Prop where
  frames : m.frames = frames
  calls : m.calls = calls
  cursor : m.cursor = target

variable {frames : Frames} {calls : List Nat} {target : Nat} {m m' : Machine} {i : Instruction}

theorem Pending.depth_lt (pending : Pending frames calls target m) :
    calls.length < m.calls.length := by
  obtain ⟨later, stack⟩ := pending.above
  rw [stack, List.length_append, List.length_cons]
  omega

theorem Pending.within_frame (pending : Pending frames calls target m)
    (same : m'.calls = m.calls) (below : m'.frames.below = m.frames.below) :
    Pending frames calls target m' := by
  obtain ⟨later, stack⟩ := pending.above
  exact ⟨⟨later, same.trans stack⟩, below ▸ pending.kept⟩

theorem Pending.enter (pending : Pending frames calls target m) (entry : Nat)
    (arguments : List Value) (q : ArgQueue) :
    Pending frames calls target (m.enter entry arguments q) := by
  obtain ⟨later, stack⟩ := pending.above
  refine ⟨⟨(m.cursor + 1) :: later, ?_⟩, ?_⟩
  · simp [Machine.enter, stack]
  · exact pending.kept.trans (List.suffix_cons m.frames.active m.frames.below)

theorem Pending.leave {address : Nat} {rest : List Nat} (pending : Pending frames calls target m)
    (wf : m.WellFormed) (height : frames.depth = calls.length + 1)
    (top : m.calls = address :: rest) :
    Pending frames calls target
        { m with frames := m.remaining, calls := rest, cursor := address } ∨
      Returned frames calls target
        { m with frames := m.remaining, calls := rest, cursor := address } := by
  obtain ⟨⟨later, stack⟩, kept⟩ := pending
  have below := (popped_of_call wf.depth (by simp [top])).2
  have size : m.remaining.toList.length = rest.length + 1 := by
    have depth := wf.depth
    rw [Frames.depth, below, top] at depth
    simpa using depth
  have caller : frames.toList.length = calls.length + 1 := by
    simpa [Frames.toList, Frames.depth] using height
  rw [below] at kept
  -- The heights of the stacks tell the matching return: it takes off the address of the call and,
  -- with it, the last wheel above those of the caller.
  cases later with
  | nil =>
    right
    obtain ⟨rfl, rfl⟩ : address = target ∧ rest = calls := by simpa [top] using stack
    have whole := kept.eq_of_length (caller.trans size.symm)
    exact ⟨(Frames.toList_injective whole).symm, rfl, rfl⟩
  | cons first later =>
    left
    have tail : rest = later ++ target :: calls := by
      rw [top, List.cons_append, List.cons.injEq] at stack
      exact stack.2
    refine ⟨⟨later, tail⟩, ?_⟩
    rcases List.suffix_cons_iff.mp kept with whole | lower
    · have wide := congrArg List.length whole
      rw [← Frames.toList, caller, size, tail, List.length_append, List.length_cons] at wide
      omega
    · exact lower

theorem Pending.move (pending : Pending frames calls target m) (wf : m.WellFormed)
    (height : frames.depth = calls.length + 1) (moved : Move m i m') :
    Pending frames calls target m' ∨ Returned frames calls target m' := by
  cases moved with
  | stay => exact .inl pending
  | work => exact .inl (pending.within_frame rfl rfl)
  | steer => exact .inl (pending.within_frame rfl rfl)
  | jump => exact .inl (pending.within_frame rfl rfl)
  | skip => exact .inl (pending.within_frame rfl rfl)
  | enter => exact .inl (pending.enter _ _ _)
  | leave _ top => exact pending.leave wf height top
  | crash => exact .inl (pending.within_frame rfl rfl)
  | recover => exact .inl (pending.within_frame rfl rfl)
  | miss => exact .inl (pending.within_frame rfl rfl)

end Machine

namespace Session

variable {σ : Type} [Host σ]

def callDepth (s : Session σ) : Nat := s.machine.calls.length

variable {frames : Frames} {calls : List Nat} {target : Nat}

theorem step_pending {s : Session σ} (pending : s.machine.Pending frames calls target)
    (wf : s.machine.WellFormed) (height : frames.depth = calls.length + 1) :
    s.step.1.machine.Pending frames calls target ∨
      s.step.1.machine.Returned frames calls target := by
  rcases step_cases s with same | ⟨i, _, moved⟩
  · exact .inl (same ▸ pending)
  · have counted : s.machine.counted.Pending frames calls target := pending.within_frame rfl rfl
    exact counted.move wf.counted height moved

theorem after_pending {s : Session σ} (pending : s.machine.Pending frames calls target)
    (wf : s.machine.WellFormed) (height : frames.depth = calls.length + 1) (k : Nat)
    (away : ∀ j ≤ k, (s.after j).callDepth ≠ calls.length) :
    (s.after k).machine.Pending frames calls target := by
  induction k with
  | zero => exact pending
  | succ k ih =>
    have before := ih (fun j le => away j (Nat.le_succ_of_le le))
    rcases step_pending before (after_well_formed wf k) height with still | returned
    · exact still
    · exact absurd (congrArg List.length returned.calls) (away (k + 1) (Nat.le_refl _))

theorem after_returned {s : Session σ} (pending : s.machine.Pending frames calls target)
    (wf : s.machine.WellFormed) (height : frames.depth = calls.length + 1) (k : Nat)
    (back : (s.after k).callDepth = calls.length)
    (away : ∀ j < k, (s.after j).callDepth ≠ calls.length) :
    (s.after k).machine.Returned frames calls target := by
  cases k with
  | zero => exact absurd back (Nat.ne_of_gt pending.depth_lt)
  | succ k =>
    have before := after_pending pending wf height k (fun j le => away j (Nat.lt_succ_of_le le))
    rcases step_pending before (after_well_formed wf k) height with still | returned
    · exact absurd back (Nat.ne_of_gt still.depth_lt)
    · exact returned

theorem step_call {s : Session σ} {i : Instruction} (dispatches : s.machine.Dispatches i)
    (op : i.opcode = .call) (sound : ∀ crash m, s.machine.counted.perform i ≠ .fault crash m) :
    s.step.1.machine.Pending s.machine.frames s.machine.calls (s.machine.cursor + 1) ∧
      s.step.1.callDepth = s.callDepth + 1 := by
  rcases (step_move dispatches).of_call op with ⟨f, arguments, q, _, _, entered⟩ | ⟨_, _, raised⟩
  · unfold callDepth
    rw [entered]
    exact ⟨⟨⟨[], rfl⟩, List.suffix_refl _⟩, rfl⟩
  · exact absurd raised (sound _ _)

/-- Whatever happens after a call that goes through: while more calls are pending than at the call,
the caller's wheels lie unchanged below the active one and its calls below the new address; and the
first time that no more are pending, both stacks are those of the caller and the cursor is after
the call. -/
theorem call_brackets {s : Session σ} {i : Instruction} (reachable : s.Reachable)
    (dispatches : s.machine.Dispatches i) (op : i.opcode = .call)
    (sound : ∀ crash m, s.machine.counted.perform i ≠ .fault crash m) :
    (s.after 1).callDepth = s.callDepth + 1 ∧
      (∀ k, (∀ j ≤ k, s.callDepth < (s.after (j + 1)).callDepth) →
        s.machine.frames.toList <:+ (s.after (k + 1)).machine.frames.below ∧
          (s.machine.cursor + 1) :: s.machine.calls <:+ (s.after (k + 1)).machine.calls) ∧
      ∀ k, (s.after (k + 1)).callDepth = s.callDepth →
        (∀ j < k, (s.after (j + 1)).callDepth ≠ s.callDepth) →
        (s.after (k + 1)).machine.frames = s.machine.frames ∧
          (s.after (k + 1)).machine.calls = s.machine.calls ∧
          (s.after (k + 1)).machine.cursor = s.machine.cursor + 1 := by
  obtain ⟨pending, deeper⟩ := step_call dispatches op sound
  have wf : s.step.1.machine.WellFormed := (reachable_after reachable 1).well_formed
  have height := reachable.well_formed.depth
  have shift : ∀ k, s.after (k + 1) = s.step.1.after k := by
    intro k
    rw [Nat.add_comm]
    exact after_add s 1 k
  refine ⟨deeper, ?_, ?_⟩
  · intro k above
    have away : ∀ j ≤ k, (s.step.1.after j).callDepth ≠ s.machine.calls.length := by
      intro j le
      rw [← shift]
      exact Nat.ne_of_gt (above j le)
    obtain ⟨⟨later, stack⟩, kept⟩ := after_pending pending wf height k away
    rw [shift]
    exact ⟨kept, later, stack.symm⟩
  · intro k back first
    rw [shift] at back ⊢
    have away : ∀ j < k, (s.step.1.after j).callDepth ≠ s.machine.calls.length := by
      intro j lt
      rw [← shift]
      exact first j lt
    obtain ⟨frames, calls, cursor⟩ := after_returned pending wf height k back away
    exact ⟨frames, calls, cursor⟩

def nestedCalls : Program :=
  ⟨#[{ opcode := .define, text := "f" }, { opcode := .newv, int := 7 }, { opcode := .ret },
    { opcode := .define, text := "g" }, { opcode := .call, text := "f" }, { opcode := .ret },
    { opcode := .newv, int := 1 }, { opcode := .call, text := "g" }]⟩

def nestedRun : Session Console := (start nestedCalls none {}).after 3

theorem nested_calls_bracket :
    nestedRun.Reachable ∧ nestedRun.machine.Dispatches { opcode := .call, text := "g" } ∧
      (∀ crash m,
        nestedRun.machine.counted.perform { opcode := .call, text := "g" } ≠ .fault crash m) ∧
      (nestedRun.after 2).callDepth = nestedRun.callDepth + 2 ∧
      (nestedRun.after 5).callDepth = nestedRun.callDepth ∧
      (nestedRun.after 5).machine.frames = nestedRun.machine.frames ∧
      (nestedRun.after 5).machine.calls = nestedRun.machine.calls ∧
      (nestedRun.after 5).machine.cursor = nestedRun.machine.cursor + 1 := by
  have reachable : nestedRun.Reachable := ⟨nestedCalls, none, {}, 3, rfl⟩
  have dispatches : nestedRun.machine.Dispatches { opcode := .call, text := "g" } :=
    Machine.dispatches_unlimited rfl rfl
  have gone : ∃ m, nestedRun.machine.counted.perform { opcode := .call, text := "g" } = .go m :=
    ⟨_, rfl⟩
  have sound : ∀ crash m,
      nestedRun.machine.counted.perform { opcode := .call, text := "g" } ≠ .fault crash m := by
    obtain ⟨left, gone⟩ := gone
    simp [gone]
  have brackets := (call_brackets reachable dispatches rfl sound).2.2 4 rfl (by decide)
  exact ⟨reachable, dispatches, sound, rfl, rfl, brackets⟩

end Session
end Wheelwork
