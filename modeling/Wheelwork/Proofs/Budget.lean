import Wheelwork.Proofs.Recasting

/-!
Step limits. No instruction looks at the limit, so a machine with one goes the way of a machine
without, until the instructions it may dispatch are used up; there it stops for good.
-/
namespace Wheelwork

namespace Machine

def budgeted (m : Machine) (limit : Option Nat) : Machine := { m with limit }

end Machine

def Effect.map (f : Machine → Machine) : Effect → Effect
  | .go m => .go (f m)
  | .print lines m => .print lines (f m)
  | .ask prompt i m => .ask prompt i (f m)
  | .pause millis m => .pause millis (f m)
  | .exit how m => .exit how (f m)
  | .fault crash m => .fault crash (f m)
  | .spent limit m => .spent limit (f m)

theorem Effect.recast_limit (e : Effect) (limit : Option Nat) :
    e.recast { limit := fun _ => limit } = e.map (·.budgeted limit) := by
  cases e <;> rfl

namespace Machine

variable {m m' : Machine} {i : Instruction}

theorem dispatch_budgeted (m : Machine) (i : Instruction) (limit : Option Nat) :
    (m.budgeted limit).dispatch i = (m.dispatch i).map (·.budgeted limit) := by
  rw [← Effect.recast_limit]
  exact dispatch_recast (r := { limit := fun _ => limit }) m ⟨rfl, rfl, rfl, rfl⟩ rfl rfl
    (fun _ => rfl) rfl

theorem store_unspent (m : Machine) (i : Instruction) (result : Except Fault Value) (limit : Nat)
    (m' : Machine) : m.store i result ≠ .spent limit m' := by
  unfold store fail
  split
  · simp
  · split <;> simp

theorem call_unspent (m : Machine) (i : Instruction) (limit : Nat) (m' : Machine) :
    m.call i ≠ .spent limit m' := by
  unfold call fail
  split
  · simp
  · simp only
    split
    · simp
    · split <;> simp

theorem perform_unspent (m : Machine) (i : Instruction) (limit : Nat) (m' : Machine) :
    m.perform i ≠ .spent limit m' := by
  unfold perform
  cases i.opcode with
  | newv | jmp | jiz | errh | argview | dbgprintv | dbgprintc => simp
  | movvw =>
    simp only [withWheel, fail]
    split <;> simp
  | whldirv | whldirc | addarg | define | inp =>
    simp only [fail]
    split <;> simp
  | cmp =>
    simp only [cmp, fail]
    split <;> simp
  | add | sub | mul | div => exact store_unspent _ _ _ _ _
  | call => exact call_unspent m i limit m'
  | ret =>
    simp only [ret]
    split <;> simp
  | del =>
    simp only [delay, fail]
    split
    · split <;> simp
    · simp
  | out =>
    simp only [out, fail]
    split
    · simp
    · split <;> simp

theorem dispatch_unspent (m : Machine) (i : Instruction) (limit : Nat) (m' : Machine) :
    m.dispatch i ≠ .spent limit m' := by
  rcases perform_accounted m.counted i with ⟨cause, q, raised⟩ | ⟨sound, _⟩
  · rw [dispatch_raised raised]
    rcases recover_cases (m.counted.requeue q) ⟨cause, m.cursor, i⟩ with
      fatal | ⟨handler, _, _, handled⟩
    · simp [fatal]
    · simp [handled]
  · rw [dispatch_sound sound]
    exact perform_unspent m.counted i limit m'

theorem turn_budgeted {limit : Nat} (unlimited : m.limit = none)
    (room : m.steps < limit ∨ m.program.get? m.cursor = none) :
    (m.budgeted (some limit)).turn = m.turn.map (·.budgeted (some limit)) := by
  cases current : m.program.get? m.cursor with
  | none =>
    have ended : (m.budgeted (some limit)).program.get? (m.budgeted (some limit)).cursor = none :=
      current
    simp only [turn, current, ended]
    rfl
  | some i =>
    have below : m.steps < limit := by
      rcases room with below | ended
      · exact below
      · simp [current] at ended
    have dispatches : (m.budgeted (some limit)).Dispatches i := by
      refine ⟨current, ?_⟩
      intro bound same
      obtain rfl : limit = bound := by simpa [budgeted] using same
      exact below
    rw [turn_of_dispatches dispatches, turn_of_dispatches (dispatches_unlimited current unlimited)]
    exact dispatch_budgeted m i (some limit)

theorem spent_of_turn {limit : Nat} (spent : m.turn = .spent limit m') :
    m.limit = some limit ∧ limit ≤ m.steps ∧ m' = m := by
  unfold turn at spent
  cases current : m.program.get? m.cursor with
  | none => simp [current] at spent
  | some i =>
    simp only [current] at spent
    cases bound : m.limit with
    | none =>
      simp only [bound] at spent
      exact absurd spent (dispatch_unspent m i limit m')
    | some most =>
      simp only [bound] at spent
      split at spent
      · rename_i used
        simp only [Effect.spent.injEq] at spent
        obtain ⟨rfl, rfl⟩ := spent
        exact ⟨rfl, used, rfl⟩
      · exact absurd spent (dispatch_unspent m i limit m')

theorem turn_spent {limit : Nat} (current : m.program.get? m.cursor = some i)
    (bound : m.limit = some limit) (used : limit ≤ m.steps) : m.turn = .spent limit m := by
  simp [turn, current, bound, used]

theorem Move.steps (moved : Move m i m') :
    m'.steps = m.steps ∧ m'.limit = m.limit ∧ m'.program = m.program := by
  cases moved <;> exact ⟨rfl, rfl, rfl⟩

end Machine

namespace Session

variable {σ : Type} [Host σ]

def budgeted (s : Session σ) (limit : Option Nat) : Session σ := ⟨s.machine.budgeted limit, s.host⟩

theorem step_budgeted {s : Session σ} {limit : Nat} (unlimited : s.machine.limit = none)
    (room : s.machine.steps < limit ∨ s.machine.program.get? s.machine.cursor = none) :
    (s.budgeted (some limit)).step = (s.step.1.budgeted (some limit), s.step.2) := by
  let r : Recast := { limit := fun _ => some limit }
  have same : ∀ p : Progress, p.recast r = p := by
    rintro (_ | exit | ⟨crash | bound | error⟩) <;> rfl
  have turned : (s.machine.recast r).turn = s.machine.turn.recast r := by
    rw [Effect.recast_limit]
    exact Machine.turn_budgeted unlimited room
  have stepped := step_recast (s := s) rfl rfl turned
  rw [same] at stepped
  exact stepped

theorem step_spent {s : Session σ} {i : Instruction} {limit : Nat}
    (current : s.machine.program.get? s.machine.cursor = some i)
    (bound : s.machine.limit = some limit) (used : limit ≤ s.machine.steps) :
    s.step = (s, .failed (.stepLimit limit)) := by
  obtain ⟨m, h⟩ := s
  simp only [step_mk, Machine.turn_spent current bound used]

theorem step_ended {s : Session σ} (ended : s.machine.program.get? s.machine.cursor = none) :
    s.step = (s, .finished .endOfStream) := by
  obtain ⟨m, h⟩ := s
  simp only [step_mk, Machine.turn, ended]

theorem spent_of_step {s : Session σ} {limit : Nat}
    (spent : s.step.2 = .failed (.stepLimit limit)) :
    s.machine.limit = some limit ∧ limit ≤ s.machine.steps ∧ s.step.1 = s := by
  obtain ⟨m, h⟩ := s
  have settled : ∀ m : Machine, m.progress ≠ .failed (.stepLimit limit) := by
    intro m
    unfold Machine.progress
    split <;> simp
  rw [step_mk] at spent ⊢
  cases turned : m.turn with
  | go m =>
    simp only [turned] at spent
    exact absurd spent (settled m)
  | print lines m =>
    simp only [turned] at spent
    split at spent
    · exact absurd spent (settled m.advance)
    · simp at spent
  | ask prompt i m =>
    simp only [turned] at spent
    split at spent
    · rename_i line _ _
      cases stored : m.answer i line with
      | ok m' =>
        simp only [stored] at spent
        exact absurd spent (settled m')
      | error crash => simp [stored, Machine.settle] at spent
    · simp at spent
  | pause millis m =>
    simp only [turned] at spent
    exact absurd spent (settled m.advance)
  | exit how m => simp [turned] at spent
  | fault crash m => simp [turned] at spent
  | spent used m' =>
    obtain rfl : used = limit := by simpa [turned] using spent
    obtain ⟨bound, reached, rfl⟩ := Machine.spent_of_turn turned
    exact ⟨bound, reached, rfl⟩

theorem dispatches_of_running {s : Session σ} (going : s.step.2 = .running) :
    ∃ i, s.machine.Dispatches i := by
  cases current : s.machine.program.get? s.machine.cursor with
  | none => simp [step_ended current] at going
  | some i =>
    refine ⟨i, current, ?_⟩
    intro limit bound
    apply Nat.lt_of_not_le
    intro used
    simp [step_spent current bound used] at going

theorem step_dispatched {s : Session σ} {i : Instruction} (dispatches : s.machine.Dispatches i) :
    s.step.1.machine.steps = s.machine.steps + 1 ∧ s.step.1.machine.limit = s.machine.limit := by
  obtain ⟨steps, limit, _⟩ := (step_move dispatches).steps
  exact ⟨steps, limit⟩

theorem step_limit (s : Session σ) : s.step.1.machine.limit = s.machine.limit := by
  rcases step_cases s with same | ⟨i, dispatches, _⟩
  · rw [same]
  · exact (step_dispatched dispatches).2

theorem step_steps (s : Session σ) :
    s.machine.steps ≤ s.step.1.machine.steps ∧ s.step.1.machine.steps ≤ s.machine.steps + 1 := by
  rcases step_cases s with same | ⟨i, dispatches, _⟩
  · rw [same]
    omega
  · have raised := (step_dispatched dispatches).1
    omega

end Session

theorem Progress.running_of_result {p : Progress} (none : p.result? = .none) : p = .running := by
  cases p with
  | running => rfl
  | finished exit => simp [result?] at none
  | failed error => simp [result?] at none

theorem Progress.failed_of_result {p : Progress} {error : RunError}
    (failed : p.result? = some (.error error)) : p = .failed error := by
  cases p with
  | running => simp [result?] at failed
  | finished exit => simp [result?] at failed
  | failed cause => simpa [result?] using failed

namespace Session

variable {σ : Type} [Host σ] {s t t' : Session σ} {result result' : Except RunError Exit}

/-- The run stopped after so many steps, if it has not ended by then. -/
def runFor : (fuel : Nat) → Session σ → Session σ × Option (Except RunError Exit)
  | 0, s => (s, none)
  | fuel + 1, s =>
    match s.step with
    | (s, .running) => runFor fuel s
    | (s, .finished exit) => (s, some (.ok exit))
    | (s, .failed error) => (s, some (.error error))

theorem runFor_going (fuel : Nat) (going : s.step.2.result? = none) :
    s.runFor (fuel + 1) = s.step.1.runFor fuel := by
  have running := Progress.running_of_result going
  rw [runFor]
  split
  · rename_i stepped
    rw [stepped]
  · rename_i stepped
    simp [stepped] at running
  · rename_i stepped
    simp [stepped] at running

theorem runFor_over (fuel : Nat) (told : s.step.2.result? = some result) :
    s.runFor (fuel + 1) = (s.step.1, some result) := by
  rw [runFor]
  split
  · rename_i stepped
    simp [stepped, Progress.result?] at told
  · rename_i stepped
    simpa [stepped, Progress.result?] using told
  · rename_i stepped
    simpa [stepped, Progress.result?] using told

theorem runFor_add {fuel : Nat} (going : s.runFor fuel = (t, none)) (more : Nat) :
    s.runFor (fuel + more) = t.runFor more := by
  induction fuel generalizing s with
  | zero =>
    obtain rfl : s = t := by simpa [runFor] using going
    rw [Nat.zero_add]
  | succ fuel ih =>
    cases told : s.step.2.result? with
    | none =>
      rw [runFor_going fuel told] at going
      rw [Nat.add_right_comm, runFor_going (fuel + more) told]
      exact ih going
    | some result => simp [runFor_over fuel told] at going

theorem runFor_stays {fuel : Nat} (done : s.runFor fuel = (t, some result)) (more : Nat) :
    s.runFor (fuel + more) = (t, some result) := by
  induction fuel generalizing s with
  | zero => simp [runFor] at done
  | succ fuel ih =>
    rw [Nat.add_right_comm]
    cases told : s.step.2.result? with
    | none =>
      rw [runFor_going fuel told] at done
      rw [runFor_going (fuel + more) told]
      exact ih done
    | some early =>
      rw [runFor_over fuel told] at done
      rw [runFor_over (fuel + more) told]
      exact done

theorem runFor_steps (s : Session σ) (fuel : Nat) :
    s.machine.steps ≤ (s.runFor fuel).1.machine.steps ∧
      (s.runFor fuel).1.machine.steps ≤ s.machine.steps + fuel := by
  induction fuel generalizing s with
  | zero => simp [runFor]
  | succ fuel ih =>
    have one := step_steps s
    cases told : s.step.2.result? with
    | none =>
      have rest := ih s.step.1
      rw [runFor_going fuel told]
      omega
    | some result =>
      rw [runFor_over fuel told]
      exact ⟨one.1, Nat.le_trans one.2 (by omega)⟩

theorem runFor_unfinished {fuel : Nat} (going : s.runFor fuel = (t, none)) :
    t = s.after fuel ∧ t.machine.steps = s.machine.steps + fuel := by
  induction fuel generalizing s with
  | zero =>
    obtain rfl : s = t := by simpa [runFor] using going
    exact ⟨rfl, rfl⟩
  | succ fuel ih =>
    cases told : s.step.2.result? with
    | some result => simp [runFor_over fuel told] at going
    | none =>
      rw [runFor_going fuel told] at going
      obtain ⟨same, count⟩ := ih going
      have shift : s.after (fuel + 1) = s.step.1.after fuel := by
        rw [Nat.add_comm]
        exact after_add s 1 fuel
      obtain ⟨i, dispatches⟩ := dispatches_of_running (Progress.running_of_result told)
      have raised := (step_dispatched dispatches).1
      exact ⟨same.trans shift.symm, by omega⟩

theorem runFor_ends {limit fuel : Nat} (bound : s.machine.limit = some limit)
    (enough : limit - s.machine.steps < fuel) : ∃ t result, s.runFor fuel = (t, some result) := by
  -- Each step that goes on brings the count closer to the limit, so the rest of the budget shrinks
  -- with the fuel.
  induction fuel generalizing s with
  | zero => omega
  | succ fuel ih =>
    cases told : s.step.2.result? with
    | some result => exact ⟨s.step.1, result, runFor_over fuel told⟩
    | none =>
      obtain ⟨i, dispatches⟩ := dispatches_of_running (Progress.running_of_result told)
      have below := dispatches.2 limit bound
      have raised := (step_dispatched dispatches).1
      rw [runFor_going fuel told]
      exact ih ((step_limit s).trans bound) (by omega)

/-- A run that stays within the budget is the same with it and without. -/
theorem runFor_budgeted {limit : Nat} (unlimited : s.machine.limit = none) (fuel : Nat)
    (within : (s.runFor fuel).1.machine.steps ≤ limit) :
    (s.budgeted (some limit)).runFor fuel =
      ((s.runFor fuel).1.budgeted (some limit), (s.runFor fuel).2) := by
  induction fuel generalizing s with
  | zero => rfl
  | succ fuel ih =>
    -- What this step dispatches is counted among the steps of the whole run.
    have room : s.machine.steps < limit ∨ s.machine.program.get? s.machine.cursor = none := by
      cases current : s.machine.program.get? s.machine.cursor with
      | none => exact .inr rfl
      | some i =>
        left
        have raised := (step_dispatched (Machine.dispatches_unlimited current unlimited)).1
        cases told : s.step.2.result? with
        | none =>
          have rest := (runFor_steps s.step.1 fuel).1
          rw [runFor_going fuel told] at within
          omega
        | some result =>
          rw [runFor_over fuel told] at within
          exact Nat.le_trans (Nat.le_of_eq raised.symm) within
    have same := step_budgeted unlimited room
    have alike : (s.budgeted (some limit)).step.2.result? = s.step.2.result? := by rw [same]
    cases told : s.step.2.result? with
    | none =>
      rw [runFor_going fuel told] at within ⊢
      rw [runFor_going fuel (alike.trans told), same]
      exact ih ((step_limit s).trans unlimited) within
    | some result =>
      rw [runFor_over fuel told, runFor_over fuel (alike.trans told), same]

def Finishes (s t : Session σ) (result : Except RunError Exit) : Prop :=
  ∃ fuel, s.runFor fuel = (t, some result)

theorem Finishes.unique (one : s.Finishes t result) (other : s.Finishes t' result') :
    t = t' ∧ result = result' := by
  obtain ⟨n, one⟩ := one
  obtain ⟨k, other⟩ := other
  have long := runFor_stays one k
  rw [Nat.add_comm, runFor_stays other n] at long
  simp only [Prod.mk.injEq, Option.some.injEq] at long
  exact ⟨long.1.symm, long.2.symm⟩

theorem run_going (going : s.step.2.result? = none) : s.run = s.step.1.run := by
  rw [run]
  simp [going]

theorem run_over (told : s.step.2.result? = some result) : s.run = some (s.step.1, result) := by
  rw [run]
  simp [told]

theorem Finishes.run (finishes : s.Finishes t result) : s.run = some (t, result) := by
  obtain ⟨fuel, ends⟩ := finishes
  induction fuel generalizing s with
  | zero => simp [runFor] at ends
  | succ fuel ih =>
    cases told : s.step.2.result? with
    | none =>
      rw [runFor_going fuel told] at ends
      rw [run_going told]
      exact ih ends
    | some early =>
      obtain ⟨rfl, rfl⟩ : s.step.1 = t ∧ early = result := by
        simpa [runFor_over fuel told] using ends
      exact run_over told

/-- The run comes to what some number of steps come to, and to nothing if no number of them ends
it. -/
theorem run_eq_some_iff : s.run = some (t, result) ↔ s.Finishes t result := by
  refine ⟨?_, Finishes.run⟩
  intro ran
  refine run.partial_correctness (fun s end_ => s.Finishes end_.1 end_.2) ?_ s (t, result) ran
  -- What a longer run comes to needs one step more than what is left of it after the first.
  rintro run ih s ⟨t, result⟩ ends
  cases told : s.step.2.result? with
  | none =>
    have rest : run s.step.1 = some (t, result) := by simpa [told] using ends
    obtain ⟨fuel, finishes⟩ := ih s.step.1 (t, result) rest
    exact ⟨fuel + 1, (runFor_going fuel told).trans finishes⟩
  | some early =>
    obtain ⟨rfl, rfl⟩ : s.step.1 = t ∧ early = result := by simpa [told] using ends
    exact ⟨1, runFor_over 0 told⟩

theorem run_eq_none_iff : s.run = none ↔ ∀ n, (s.after n).step.2 = .running := by
  constructor
  · intro endless n
    have unfinished : ∀ fuel, (s.runFor fuel).2 = none := by
      intro fuel
      rcases ran : s.runFor fuel with ⟨t, _ | result⟩
      · rfl
      · have ends := Finishes.run ⟨fuel, ran⟩
        simp [endless] at ends
    have before : s.runFor n = (s.after n, none) := by
      have going : s.runFor n = ((s.runFor n).1, none) := Prod.ext rfl (unfinished n)
      rw [← (runFor_unfinished going).1]
      exact going
    have next := unfinished (n + 1)
    rw [runFor_add before 1] at next
    apply Progress.running_of_result
    cases told : (s.after n).step.2.result? with
    | none => rfl
    | some result => simp [runFor_over 0 told] at next
  · intro running
    apply Option.eq_none_iff_forall_ne_some.mpr
    rintro ⟨t, result⟩ ran
    obtain ⟨fuel, ends⟩ := run_eq_some_iff.mp ran
    induction fuel generalizing s with
    | zero => simp [runFor] at ends
    | succ fuel ih =>
      have going : s.step.2.result? = none := congrArg Progress.result? (running 0)
      have later : ∀ n, (s.step.1.after n).step.2 = .running := by
        intro n
        have shift := after_add s 1 n
        rw [Nat.add_comm] at shift
        exact shift ▸ running (n + 1)
      rw [run_going going] at ran
      rw [runFor_going fuel going] at ends
      exact ih later ran ends

theorem finishes_of_exit {fuel : Nat} {exit : Exit}
    (ended : (s.runFor fuel).2.map Except.toOption = some (some exit)) :
    s.Finishes (s.runFor fuel).1 (.ok exit) := by
  refine ⟨fuel, ?_⟩
  rcases ran : s.runFor fuel with ⟨t, _ | error | found⟩
  · simp [ran] at ended
  · simp [ran, Except.toOption] at ended
  · obtain rfl : found = exit := by simpa [ran, Except.toOption] using ended
    rfl

theorem limited_finishes {limit : Nat} (bound : s.machine.limit = some limit) :
    ∃ t result, s.Finishes t result := by
  obtain ⟨t, result, ends⟩ := runFor_ends bound (Nat.lt_succ_self _)
  exact ⟨t, result, _, ends⟩

theorem budgeted_finishes {limit : Nat} (unlimited : s.machine.limit = none)
    (finishes : s.Finishes t result) (within : t.machine.steps ≤ limit) :
    (s.budgeted (some limit)).Finishes (t.budgeted (some limit)) result := by
  obtain ⟨fuel, ends⟩ := finishes
  have inside : (s.runFor fuel).1.machine.steps ≤ limit := by
    rw [ends]
    exact within
  have same := runFor_budgeted unlimited fuel inside
  exact ⟨fuel, by rw [same, ends]⟩

theorem finishes_spent {limit : Nat} (finishes : s.Finishes t (.error (.stepLimit limit)))
    (within : ∀ most, s.machine.limit = some most → s.machine.steps ≤ most) :
    s.machine.limit = some limit ∧ t.machine.steps = limit := by
  obtain ⟨fuel, ends⟩ := finishes
  induction fuel generalizing s with
  | zero => simp [runFor] at ends
  | succ fuel ih =>
    cases told : s.step.2.result? with
    | none =>
      obtain ⟨i, dispatches⟩ := dispatches_of_running (Progress.running_of_result told)
      obtain ⟨raised, same⟩ := step_dispatched dispatches
      have next : ∀ most, s.step.1.machine.limit = some most → s.step.1.machine.steps ≤ most := by
        intro most bound
        rw [raised]
        exact dispatches.2 most (same.symm.trans bound)
      rw [runFor_going fuel told] at ends
      rw [← same]
      exact ih next ends
    | some last =>
      obtain ⟨rfl, rfl⟩ : s.step.1 = t ∧ last = .error (.stepLimit limit) := by
        simpa [runFor_over fuel told] using ends
      obtain ⟨bound, reached, stays⟩ := spent_of_step (Progress.failed_of_result told)
      rw [stays]
      exact ⟨bound, Nat.le_antisymm (within limit bound) reached⟩

theorem finishes_unspent (unlimited : s.machine.limit = none) (finishes : s.Finishes t result)
    (limit : Nat) : result ≠ .error (.stepLimit limit) := by
  rintro rfl
  have bound := (finishes_spent finishes (by simp [unlimited])).1
  simp [unlimited] at bound

theorem outlasting {count : Nat}
    (outlasts : ∀ t result, s.Finishes t result → s.machine.steps + count < t.machine.steps) :
    s.runFor count = (s.after count, none) ∧
      (s.after count).machine.steps = s.machine.steps + count ∧
      ∃ i, (s.after count).machine.program.get? (s.after count).machine.cursor = some i := by
  rcases ran : s.runFor count with ⟨t, ended⟩
  cases ended with
  | some result =>
    have early := (runFor_steps s count).2
    have late := outlasts t result ⟨count, ran⟩
    rw [ran] at early
    exact absurd late (Nat.not_lt.mpr early)
  | none =>
    obtain ⟨rfl, counted⟩ := runFor_unfinished ran
    refine ⟨rfl, counted, ?_⟩
    cases current : (s.after count).machine.program.get? (s.after count).machine.cursor with
    | some i => exact ⟨i, rfl⟩
    | none =>
      have told : (s.after count).step.2.result? = some (.ok .endOfStream) := by
        rw [step_ended current]
        rfl
      have ends : s.Finishes (s.after count) (.ok .endOfStream) := by
        refine ⟨count + 1, ?_⟩
        rw [runFor_add ran 1, runFor_over 0 told, step_ended current]
      have late := outlasts _ _ ends
      omega

theorem budgeted_spent {count : Nat} (unlimited : s.machine.limit = none)
    (outlasts : ∀ t result, s.Finishes t result → s.machine.steps + count < t.machine.steps) :
    (s.budgeted (some (s.machine.steps + count))).Finishes
      ((s.after count).budgeted (some (s.machine.steps + count)))
      (.error (.stepLimit (s.machine.steps + count))) := by
  obtain ⟨ran, counted, i, current⟩ := outlasting outlasts
  have within : (s.runFor count).1.machine.steps ≤ s.machine.steps + count := by
    rw [ran]
    exact Nat.le_of_eq counted
  have same := runFor_budgeted unlimited count within
  rw [ran] at same
  have stuck := step_spent (s := (s.after count).budgeted (some (s.machine.steps + count)))
    current rfl (Nat.le_of_eq counted.symm)
  refine ⟨count + 1, ?_⟩
  rw [runFor_add same 1, runFor_over 0 (by rw [stuck]; rfl), stuck]

section Start

variable {program : Program} {limit : Nat} {host : σ}

theorem run_within (ran : (start program none host).run = some (t, result))
    (within : t.machine.steps ≤ limit) :
    (start program (some limit) host).run = some (t.budgeted (some limit), result) :=
  (budgeted_finishes (s := start program none host) rfl (run_eq_some_iff.mp ran) within).run

theorem run_beyond
    (late : ∀ t result, (start program none host).run = some (t, result) →
      limit < t.machine.steps) :
    let stopped := ((start program none host).after limit).budgeted (some limit)
    (start program (some limit) host).run = some (stopped, .error (.stepLimit limit)) ∧
      stopped.machine.steps = limit ∧ stopped.step = (stopped, .failed (.stepLimit limit)) := by
  have zero : (start program none host).machine.steps + limit = limit := Nat.zero_add limit
  have outlasts : ∀ t result, (start program none host).Finishes t result →
      (start program none host).machine.steps + limit < t.machine.steps := by
    intro t result finishes
    rw [zero]
    exact late t result finishes.run
  obtain ⟨_, counted, i, current⟩ := outlasting outlasts
  have spent := budgeted_spent (s := start program none host) rfl outlasts
  rw [zero] at spent counted
  exact ⟨spent.run, counted, step_spent current rfl (Nat.le_of_eq counted.symm)⟩

end Start

/-- A run with a limit always ends. If the run without one ends within that many instructions, the
two agree; if it does not, the limited machine is stopped in the state that the other one is in
after that many, and no handler sets it going again. So a limit that was not met may be raised. -/
theorem limit_truncates (program : Program) (limit : Nat) (host : σ) :
    let free := start program none host
    let limited := start program (some limit) host
    let stopped := (free.after limit).budgeted (some limit)
    (∃ t result, limited.run = some (t, result)) ∧
      (∀ t result, free.run = some (t, result) → t.machine.steps ≤ limit →
        limited.run = some (t.budgeted (some limit), result) ∧
          ∀ bound, result ≠ .error (.stepLimit bound)) ∧
      ((∀ t result, free.run = some (t, result) → limit < t.machine.steps) →
        limited.run = some (stopped, .error (.stepLimit limit)) ∧
          stopped.machine.steps = limit ∧ stopped.step = (stopped, .failed (.stepLimit limit))) ∧
      ∀ larger t result, limit ≤ larger → limited.run = some (t, result) →
        result ≠ .error (.stepLimit limit) →
        (start program (some larger) host).run = some (t.budgeted (some larger), result) := by
  intro free limited stopped
  refine ⟨?_, ?_, run_beyond, ?_⟩
  · obtain ⟨t, result, finishes⟩ := limited_finishes (s := limited) rfl
    exact ⟨t, result, finishes.run⟩
  · intro t result ran within
    exact ⟨run_within ran within, finishes_unspent (s := free) rfl (run_eq_some_iff.mp ran)⟩
  · intro larger t result le ran unmet
    by_cases early : ∃ t result, free.run = some (t, result) ∧ t.machine.steps ≤ limit
    · obtain ⟨t', result', whole, within⟩ := early
      have same := (run_within whole within).symm.trans ran
      simp only [Option.some.injEq, Prod.mk.injEq] at same
      obtain ⟨rfl, rfl⟩ := same
      have longer := run_within whole (Nat.le_trans within le)
      exact longer
    · have late : ∀ t result, free.run = some (t, result) → limit < t.machine.steps := by
        intro t result whole
        apply Nat.lt_of_not_le
        intro within
        exact early ⟨t, result, whole, within⟩
      have same := (run_beyond late).1.symm.trans ran
      simp only [Option.some.injEq, Prod.mk.injEq] at same
      exact absurd same.2.symm unmet

def guarded : Program := ⟨#[{ opcode := .newv, int := 1 }, { opcode := .errh }]⟩

theorem guarded_limits :
    (∃ t, (start guarded (some 2) ({} : Console)).run = some (t, .ok .endOfStream) ∧
      t.machine.steps = 2) ∧
    ∃ t, (start guarded (some 0) ({} : Console)).run = some (t, .error (.stepLimit 0)) ∧
      t.machine.cursor = 0 := by
  have finishes : (start guarded none ({} : Console)).Finishes
      ((start guarded none ({} : Console)).after 2) (.ok .endOfStream) := ⟨2, rfl⟩
  have full := (limit_truncates guarded 2 ({} : Console)).2.1 _ _ finishes.run (Nat.le_refl 2)
  have late : ∀ t result, (start guarded none ({} : Console)).run = some (t, result) →
      0 < t.machine.steps := by
    intro t result ran
    obtain ⟨rfl, _⟩ := finishes.unique (run_eq_some_iff.mp ran)
    decide
  have none := (limit_truncates guarded 0 ({} : Console)).2.2.1 late
  exact ⟨⟨_, full.1, rfl⟩, _, none.1, rfl⟩

end Session
end Wheelwork
