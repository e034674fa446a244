import Wheelwork.Proofs.WellFormed

/-!
Failing instructions. A fault leaves stacks, directions, functions and host as they were; all that
can be gone is what the instruction had taken from the front of the queue when its operands turned
out to be unfit, and how much that is depends on the instruction and the kind of fault alone.
-/
namespace Wheelwork

namespace Arithmetic

theorem claim_error {a : Arithmetic} {i : Instruction} {q : ArgQueue} {cause : Fault}
    (failed : a.claim i q = .error cause) :
    cause.kind = .badArgument ∨ cause.kind = .notEnoughArgs := by
  unfold claim at failed
  split at failed
  · simp only [Except.error.injEq] at failed
    subst failed
    exact .inl rfl
  · split at failed
    · simp only [Except.error.injEq] at failed
      subst failed
      exact .inr rfl
    · rw [(ArgQueue.drain_error failed).1]
      exact .inr rfl

theorem claim_ok {a : Arithmetic} {i : Instruction} {q rest : ArgQueue} {taken : List Value}
    (claimed : a.claim i q = .ok (taken, rest)) :
    a.least ≤ i.int.toInt.toNat ∧ i.int.toInt.toNat ≤ q.toList.length ∧
      taken = q.toList.take i.int.toInt.toNat ∧ rest.toList = q.toList.drop i.int.toInt.toNat := by
  unfold claim at claimed
  split at claimed
  · simp at claimed
  · split at claimed
    · simp at claimed
    · rename_i enough
      exact ⟨Nat.not_lt.mp enough, ArgQueue.drain_ok claimed⟩

theorem integers_length {flaw : Value → Fault} {vs : List Value} {xs : List Int64}
    (read : integers flaw vs = .ok xs) : xs.length = vs.length := by
  induction vs generalizing xs with
  | nil =>
    simp only [integers, Except.ok.injEq] at read
    simp [← read]
  | cons v vs ih =>
    cases v with
    | text s => simp [integers] at read
    | float x => simp [integers] at read
    | integer n =>
      simp only [integers] at read
      split at read
      · rename_i ns rest
        simp only [Except.ok.injEq] at read
        simp [← read, ih rest]
      · simp at read

theorem integers_error {flaw : Value → Fault} {vs : List Value} {cause : Fault}
    (failed : integers flaw vs = .error cause) : ∃ v ∈ vs, cause = flaw v := by
  induction vs with
  | nil => simp [integers] at failed
  | cons v vs ih =>
    cases v with
    | text s => exact ⟨.text s, by simp, by simpa [integers] using failed.symm⟩
    | float x => exact ⟨.float x, by simp, by simpa [integers] using failed.symm⟩
    | integer n =>
      simp only [integers] at failed
      split at failed
      · simp at failed
      · rename_i inner rest
        simp only [Except.error.injEq] at failed
        obtain ⟨v, member, flawed⟩ := ih (failed ▸ rest)
        exact ⟨v, List.mem_cons_of_mem _ member, flawed⟩

theorem ofQueued_error {a : Arithmetic} {xs : List Int64} {cause : Fault}
    (enough : a.least ≤ xs.length) (failed : a.ofQueued xs = .error cause) :
    cause = .divisionByZero := by
  cases a with
  | add => simp [ofQueued] at failed
  | mul => simp [ofQueued] at failed
  | sub =>
    cases xs with
    | nil => simp [least] at enough
    | cons x xs => simp [ofQueued, difference, Except.map] at failed
  | div =>
    cases xs with
    | nil => simp [least] at enough
    | cons x xs =>
      simp only [ofQueued, quotient] at failed
      split at failed
      · simpa [Except.map] using failed.symm
      · simp [Except.map] at failed

/-- Without queued arguments the queue is left alone; with them it is left alone if they cannot be
claimed, and else the claimed ones are gone, whether or not they turn out to be fit. -/
theorem compute_queue {a : Arithmetic} {i : Instruction} {w : Wheel} {q rest : ArgQueue}
    {result : Except Fault Value} (computed : a.compute i w q = (result, rest)) :
    i.args = false ∧ rest = q ∨
    i.args = true ∧ rest = q ∧ (∃ cause, result = .error cause ∧
      (cause.kind = .badArgument ∨ cause.kind = .notEnoughArgs)) ∨
    i.args = true ∧ i.int.toInt.toNat ≤ q.toList.length ∧
      rest.toList = q.toList.drop i.int.toInt.toNat ∧
      ∀ cause, result = .error cause →
        cause.kind = .arithmeticError ∨ cause.kind = .divisionByZero := by
  unfold compute at computed
  split at computed
  · rename_i args
    cases claimed : a.claim i q with
    | error cause =>
      simp only [claimed, Prod.mk.injEq] at computed
      exact .inr (.inl ⟨args, computed.2.symm, cause, computed.1.symm, claim_error claimed⟩)
    | ok claim =>
      obtain ⟨taken, left⟩ := claim
      obtain ⟨enough, inside, values, dropped⟩ := claim_ok claimed
      have count : taken.length = i.int.toInt.toNat := by
        rw [values, List.length_take]
        omega
      refine .inr (.inr ⟨args, inside, ?_⟩)
      simp only [claimed] at computed
      cases read : integers .badOperand taken with
      | error flaw =>
        simp only [read, Prod.mk.injEq] at computed
        obtain ⟨rfl, rfl⟩ := computed
        refine ⟨dropped, ?_⟩
        intro cause failed
        obtain ⟨v, _, flawed⟩ := integers_error read
        simp only [Except.error.injEq] at failed
        subst failed
        exact .inl (by rw [flawed]; rfl)
      | ok xs =>
        simp only [read, Prod.mk.injEq] at computed
        obtain ⟨rfl, rfl⟩ := computed
        refine ⟨dropped, ?_⟩
        intro cause failed
        have zero := ofQueued_error (by rw [integers_length read, count]; exact enough) failed
        exact .inr (by rw [zero]; rfl)
  · rename_i args
    simp only [Prod.mk.injEq] at computed
    exact .inl ⟨by simpa using args, computed.2.symm⟩

end Arithmetic

theorem Wheel.current_error {w : Wheel} {cause : Fault} (failed : w.current = .error cause) :
    cause = .emptyWheel := by
  unfold current at failed
  split at failed
  · simp at failed
  · simpa using failed.symm

namespace Machine

/-- How many queued values are gone when an instruction fails with a fault of this kind. -/
def consumed (i : Instruction) (kind : FaultKind) : Nat :=
  if i.args then
    match i.opcode with
    | .cmp => if kind = .numericDataRequired then 1 else 0
    | .del => if kind = .arithmeticError then 1 else 0
    | .add | .sub | .mul | .div =>
      if kind ∈ [.arithmeticError, .divisionByZero, .emptyWheel] then i.int.toInt.toNat else 0
    | _ => 0
  else 0

def Lost (count : Nat) (q rest : ArgQueue) : Prop :=
  count ≤ q.toList.length ∧ rest.toList = q.toList.drop count

theorem lost_none (q : ArgQueue) : Lost 0 q q := ⟨Nat.zero_le _, rfl⟩

variable {m : Machine} {i : Instruction} {cause flaw : Fault} {q rest : ArgQueue}

theorem fail_requeue
    (failed : fail (m.requeue rest) i flaw = .fault ⟨cause, m.cursor, i⟩ (m.requeue q)) :
    flaw = cause ∧ rest = q := by
  simp only [fail, requeue, Effect.fault.injEq, Crash.mk.injEq, Machine.mk.injEq] at failed
  exact ⟨failed.1.1, failed.2.2.2.2.2.2.2.2.1⟩

theorem fail_keeps (failed : m.fail i flaw = .fault ⟨cause, m.cursor, i⟩ (m.requeue q)) :
    flaw = cause ∧ q = m.queue := by
  have unchanged : fail (m.requeue m.queue) i flaw = .fault ⟨cause, m.cursor, i⟩ (m.requeue q) :=
    failed
  obtain ⟨same, kept⟩ := fail_requeue unchanged
  exact ⟨same, kept.symm⟩

theorem comparison_lost {w : Wheel} (seated : w.Seated) (op : i.opcode = .cmp)
    (failed : comparison i w q = (.error cause, rest)) : Lost (consumed i cause.kind) q rest := by
  unfold comparison at failed
  split at failed
  · simp only [Prod.mk.injEq, Except.error.injEq] at failed
    obtain ⟨rfl, rfl⟩ := failed
    simpa [consumed, op, Fault.kind] using lost_none q
  · rename_i filled
    obtain ⟨v, under⟩ := Wheel.seated_current seated (by simpa using filled)
    split at failed
    · rename_i args
      cases popped : q.pop with
      | error missing =>
        simp only [popped, Prod.mk.injEq, Except.error.injEq] at failed
        obtain ⟨rfl, rfl⟩ := failed
        rw [(ArgQueue.pop_error popped).1]
        simpa [consumed, op, Fault.kind] using lost_none q
      | ok taken =>
        obtain ⟨operand, left⟩ := taken
        -- The wheel has a value under its cursor, so what fails is the kind of a value.
        have unfit : rest = left ∧ cause.kind = .numericDataRequired := by
          simp only [popped, under] at failed
          cases v <;> cases operand <;> simp at failed <;> obtain ⟨rfl, rfl⟩ := failed <;>
            exact ⟨rfl, rfl⟩
        obtain ⟨rfl, numeric⟩ := unfit
        have values := ArgQueue.pop_ok popped
        simp [Lost, consumed, op, args, numeric, values]
    · rename_i args
      have same : rest = q := by
        split at failed <;> exact (Prod.mk.inj failed).2.symm
      subst same
      simpa [consumed, args] using lost_none rest

theorem arithmetic_lost {a : Arithmetic} (op : i.opcode = a.opcode)
    (failed : m.arithmetic i a = .fault ⟨cause, m.cursor, i⟩ (m.requeue q)) :
    Lost (consumed i cause.kind) m.queue q := by
  have rule : i.args = true → consumed i cause.kind =
      if cause.kind ∈ [.arithmeticError, .divisionByZero, .emptyWheel] then i.int.toInt.toNat
      else 0 := by
    intro args
    cases a <;> simp [consumed, args, op, Arithmetic.opcode]
  unfold arithmetic at failed
  rcases computed : a.compute i m.wheel m.queue with ⟨result, left⟩
  -- The computation fails, or it succeeds and the wheel has no place for its result.
  have outcome : left = q ∧
      (result = .error cause ∨ (∃ v, result = .ok v) ∧ cause.kind = .emptyWheel) := by
    simp only [computed] at failed
    cases result with
    | error flaw =>
      obtain ⟨rfl, rfl⟩ := fail_requeue failed
      exact ⟨rfl, .inl rfl⟩
    | ok v =>
      simp only [store] at failed
      split at failed
      · rename_i absent
        obtain ⟨rfl, rfl⟩ := fail_requeue failed
        exact ⟨rfl, .inr ⟨⟨v, rfl⟩, by rw [Wheel.current_error absent]; rfl⟩⟩
      · simp at failed
  obtain ⟨rfl, reason⟩ := outcome
  rcases Arithmetic.compute_queue computed with
    ⟨args, same⟩ | ⟨args, same, early, refused, kinds⟩ | ⟨args, inside, dropped, kinds⟩
  · subst same
    simpa [consumed, args] using lost_none m.queue
  · subst same
    have spared : cause.kind ∉ [.arithmeticError, .divisionByZero, .emptyWheel] := by
      rcases reason with failure | ⟨⟨v, success⟩, _⟩
      · rw [refused, Except.error.injEq] at failure
        subst failure
        rcases kinds with kind | kind <;> simp [kind]
      · simp [refused] at success
    rw [rule args, if_neg spared]
    exact lost_none m.queue
  · have spent : cause.kind ∈ [.arithmeticError, .divisionByZero, .emptyWheel] := by
      rcases reason with failure | ⟨_, empty⟩
      · rcases kinds cause failure with kind | kind <;> simp [kind]
      · simp [empty]
    rw [rule args, if_pos spent]
    exact ⟨inside, dropped⟩

theorem delay_lost (op : i.opcode = .del)
    (failed : m.delay i = .fault ⟨cause, m.cursor, i⟩ (m.requeue q)) :
    Lost (consumed i cause.kind) m.queue q := by
  unfold delay at failed
  split at failed
  · rename_i args
    cases popped : m.queue.pop with
    | error missing =>
      simp only [popped] at failed
      obtain ⟨rfl, rfl⟩ := fail_keeps failed
      rw [(ArgQueue.pop_error popped).1]
      simpa [consumed, op, Fault.kind] using lost_none m.queue
    | ok taken =>
      obtain ⟨v, left⟩ := taken
      have unfit : left = q ∧ cause.kind = .arithmeticError := by
        cases v with
        | integer n => simp [popped] at failed
        | text s =>
          simp only [popped] at failed
          obtain ⟨rfl, rfl⟩ := fail_requeue failed
          exact ⟨rfl, rfl⟩
        | float x =>
          simp only [popped] at failed
          obtain ⟨rfl, rfl⟩ := fail_requeue failed
          exact ⟨rfl, rfl⟩
      obtain ⟨rfl, kind⟩ := unfit
      have values := ArgQueue.pop_ok popped
      simp [Lost, consumed, op, args, kind, values]
  · simp at failed

theorem perform_keeps (op : i.opcode ∉ [.cmp, .del, .add, .sub, .mul, .div])
    (raised : m.Raises i cause q) : q = m.queue := by
  simp only [Raises, perform] at raised
  cases named : i.opcode with
  | cmp | del | add | sub | mul | div => simp [named] at op
  | newv | jmp | jiz | errh | argview | dbgprintv | dbgprintc => simp [named] at raised
  | movvw =>
    simp only [named, withWheel] at raised
    split at raised
    · simp at raised
    · exact (fail_keeps raised).2
  | whldirv | whldirc | define | addarg =>
    simp only [named] at raised
    split at raised
    · simp at raised
    · exact (fail_keeps raised).2
  | call =>
    simp only [named, call] at raised
    split at raised
    · exact (fail_keeps raised).2
    · split at raised
      · exact (fail_keeps raised).2
      · split at raised
        · exact (fail_keeps raised).2
        · simp at raised
  | ret =>
    simp only [named, ret] at raised
    split at raised <;> simp at raised
  | out =>
    simp only [named, out] at raised
    split at raised
    · simp at raised
    · split at raised
      · simp at raised
      · exact (fail_keeps raised).2
  | inp =>
    simp only [named] at raised
    split at raised
    · exact (fail_keeps raised).2
    · simp at raised

theorem raised_lost (seated : m.wheel.Seated) (raised : m.Raises i cause q) :
    Lost (consumed i cause.kind) m.queue q := by
  have failed := raised
  simp only [Raises, perform] at failed
  cases op : i.opcode with
  | cmp =>
    simp only [op, cmp] at failed
    split at failed
    · simp at failed
    · rename_i compared
      obtain ⟨rfl, rfl⟩ := fail_requeue failed
      exact comparison_lost seated op compared
  | del => exact delay_lost op (by simpa only [op] using failed)
  | add => exact arithmetic_lost (a := .add) op (by simpa only [op] using failed)
  | sub => exact arithmetic_lost (a := .sub) op (by simpa only [op] using failed)
  | mul => exact arithmetic_lost (a := .mul) op (by simpa only [op] using failed)
  | div => exact arithmetic_lost (a := .div) op (by simpa only [op] using failed)
  | _ =>
    have kept := perform_keeps (by simp [op]) raised
    subst kept
    simpa [consumed, op] using lost_none m.queue

theorem consumed_call {kind : FaultKind} (op : i.opcode = .call) : consumed i kind = 0 := by
  simp [consumed, op]

theorem consumed_early {kind : FaultKind} (early : kind = .badArgument ∨ kind = .notEnoughArgs) :
    consumed i kind = 0 := by
  unfold consumed
  split
  · rcases early with rfl | rfl <;> split <;> simp
  · rfl

end Machine

namespace Session

variable {σ : Type} [Host σ]

theorem Faults.at_once {s : Session σ} {i : Instruction} {crash : Crash} (fails : s.Faults i crash)
    (wf : s.machine.WellFormed) : ∃ cause q, crash = ⟨cause, s.machine.cursor, i⟩ ∧
      s.machine.counted.Raises i cause q := by
  rcases Machine.perform_accounted s.machine.counted i with
    ⟨cause, q, located⟩ | ⟨sound, asks, _⟩
  · refine ⟨cause, q, ?_, located⟩
    cases fails with
    | raised raised =>
      rw [located, Effect.fault.injEq] at raised
      exact raised.1.symm
    | unplaced asked =>
      rw [located] at asked
      cases asked
  · cases fails with
    | raised raised => exact absurd raised (sound _ _)
    | unplaced asked _ unplaced =>
      obtain ⟨_, rfl, filled⟩ := asks _ _ _ asked
      rw [Wheel.seated_setCurrent wf.counted.top filled] at unplaced
      cases unplaced

/-- An instruction that fails, be it recovered or not, has changed no wheel, no stack, no direction
and no function and has asked nothing of the host; of the queue exactly the values counted by
`consumed` are gone. -/
theorem faults_are_atomic {s : Session σ} {i : Instruction} {crash : Crash}
    (reachable : s.Reachable) (dispatches : s.machine.Dispatches i) (fails : s.Faults i crash) :
    s.step.1.machine.frames = s.machine.frames ∧ s.step.1.machine.calls = s.machine.calls ∧
      s.step.1.machine.direction = s.machine.direction ∧
      s.step.1.machine.functions = s.machine.functions ∧ s.step.1.host = s.host ∧
      Machine.consumed i crash.cause.kind ≤ s.machine.queue.toList.length ∧
      s.step.1.machine.queue.toList =
        s.machine.queue.toList.drop (Machine.consumed i crash.cause.kind) ∧
      (i.opcode = .call ∨ crash.cause.kind = .badArgument ∨ crash.cause.kind = .notEnoughArgs →
        s.step.1.machine.queue.toList = s.machine.queue.toList) := by
  have wf := reachable.well_formed
  obtain ⟨cause, q, rfl, raised⟩ := fails.at_once wf
  obtain ⟨inside, dropped⟩ := Machine.raised_lost wf.counted.top raised
  obtain ⟨target, stepped⟩ := step_raised dispatches raised
  rw [stepped]
  refine ⟨rfl, rfl, rfl, rfl, rfl, inside, dropped, ?_⟩
  intro early
  have none : Machine.consumed i cause.kind = 0 := by
    rcases early with op | kind
    · exact Machine.consumed_call op
    · exact Machine.consumed_early kind
  rw [none] at dropped
  exact dropped

def unfitOperands : Program :=
  ⟨#[{ opcode := .newv, text := "x" }, { opcode := .addarg }, { opcode := .addarg },
    { opcode := .addarg }, { opcode := .add, int := 2, args := true },
    { opcode := .errh, int := 1, text := "ARITHMETIC_ERROR" }]⟩

def unfitRun : Session Console := (start unfitOperands none {}).after 4

theorem unfit_operands_gone :
    unfitRun.Reachable ∧ unfitRun.machine.Dispatches { opcode := .add, int := 2, args := true } ∧
      (∃ crash failed, unfitRun.machine.counted.perform { opcode := .add, int := 2, args := true } =
        .fault crash failed ∧ crash.cause.kind = .arithmeticError) ∧
      unfitRun.machine.queue.toList = [.text "x", .text "x", .text "x"] ∧
      unfitRun.step.1.machine.queue.toList = [.text "x"] ∧
      unfitRun.step.1.machine.frames = unfitRun.machine.frames := by
  have reachable : unfitRun.Reachable := ⟨unfitOperands, none, {}, 4, rfl⟩
  have dispatches : unfitRun.machine.Dispatches { opcode := .add, int := 2, args := true } :=
    Machine.dispatches_unlimited rfl rfl
  have raised : ∃ failed, unfitRun.machine.counted.perform { opcode := .add, int := 2, args := true } =
      .fault ⟨.badOperand (.text "x"), 4, { opcode := .add, int := 2, args := true }⟩ failed :=
    ⟨_, rfl⟩
  obtain ⟨failed, raised⟩ := raised
  have atomic := faults_are_atomic reachable dispatches (.raised raised)
  exact ⟨reachable, dispatches, ⟨_, _, raised, rfl⟩, rfl, atomic.2.2.2.2.2.2.1, atomic.1⟩

end Session
end Wheelwork
