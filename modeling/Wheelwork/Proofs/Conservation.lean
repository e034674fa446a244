import Wheelwork.Proofs.Atomicity

/-!
The argument queue over whole runs. One instruction adds to its end and seven may take from its
front; whatever else happens, values are neither lost nor doubled nor put in another order, so the
values taken so far and those still queued are the values once added.
-/
namespace Wheelwork

def Instruction.Draws (i : Instruction) : Prop :=
  i.opcode = .call ∨ i.args = true ∧ i.opcode ∈ [.cmp, .del, .add, .sub, .mul, .div]

namespace Machine

variable {m m' : Machine} {i : Instruction} {q rest : ArgQueue}

/-- Values may be gone from the front of the queue, if the instruction is one that takes them. -/
def Drawn (i : Instruction) (q rest : ArgQueue) : Prop :=
  ∃ count, Lost count q rest ∧ (0 < count → i.Draws)

theorem drawn_none (i : Instruction) (q : ArgQueue) : Drawn i q q :=
  ⟨0, lost_none q, by simp⟩

theorem drawn_pop {v : Value} (draws : i.Draws) (popped : q.pop = .ok (v, rest)) :
    Drawn i q rest := by
  have values := ArgQueue.pop_ok popped
  exact ⟨1, by simp [Lost, values], fun _ => draws⟩

theorem drawn_comparison {w : Wheel} {result : Except Fault Bool} (op : i.opcode = .cmp)
    (compared : comparison i w q = (result, rest)) : Drawn i q rest := by
  unfold comparison at compared
  split at compared
  · simp only [Prod.mk.injEq] at compared
    exact compared.2 ▸ drawn_none i q
  · split at compared
    · rename_i args
      cases popped : q.pop with
      | error missing =>
        simp only [popped, Prod.mk.injEq] at compared
        exact compared.2 ▸ drawn_none i q
      | ok taken =>
        obtain ⟨operand, left⟩ := taken
        have same : left = rest := by
          simp only [popped] at compared
          split at compared <;> exact (Prod.mk.inj compared).2
        subst same
        exact drawn_pop (.inr ⟨args, by simp [op]⟩) popped
    · split at compared <;> exact (Prod.mk.inj compared).2 ▸ drawn_none i q

theorem drawn_compute {a : Arithmetic} {w : Wheel} {result : Except Fault Value}
    (op : i.opcode = a.opcode) (computed : a.compute i w q = (result, rest)) :
    Drawn i q rest := by
  rcases Arithmetic.compute_queue computed with
    ⟨_, same⟩ | ⟨_, same, _⟩ | ⟨args, inside, dropped, _⟩
  · exact same ▸ drawn_none i q
  · exact same ▸ drawn_none i q
  · have draws : i.Draws := by
      right
      refine ⟨args, ?_⟩
      cases a <;> simp [op, Arithmetic.opcode]
    exact ⟨i.int.toInt.toNat, ⟨inside, dropped⟩, fun _ => draws⟩

theorem consumed_draws {kind : FaultKind} (some : 0 < consumed i kind) : i.Draws := by
  unfold consumed at some
  split at some
  · rename_i args
    refine .inr ⟨args, ?_⟩
    cases op : i.opcode <;> simp [op] at some ⊢
  · simp at some

theorem drawn_raised {cause : Fault} (seated : m.wheel.Seated) (raised : m.Raises i cause q) :
    Drawn i m.queue q :=
  ⟨consumed i cause.kind, raised_lost seated raised, consumed_draws⟩

def Staged (m : Machine) (i : Instruction) (q : ArgQueue) : Prop :=
  i.opcode = .addarg ∧ ∃ v, m.wheel.current = .ok v ∧ q.toList = m.queue.toList ++ [v]

theorem Works.queue {w : Wheel} (done : Works m i w q) : Staged m i q ∨ Drawn i m.queue q := by
  cases done with
  | pass | append | rotate | reverse | answer => exact .inr (drawn_none i m.queue)
  | @stage v op under => exact .inl ⟨op, v, under, ArgQueue.toList_push m.queue v⟩
  | compare op compared => exact .inr (drawn_comparison op compared)
  | compute op computed => exact .inr (drawn_compute op computed)
  | wait op args popped => exact .inr (drawn_pop (.inr ⟨args, by simp [op]⟩) popped)

theorem Move.queue (moved : Move m i m') (seated : m.wheel.Seated) :
    Staged m i m'.queue ∨ Drawn i m.queue m'.queue := by
  cases moved with
  | stay | steer | jump | skip | leave | miss => exact .inr (drawn_none i m.queue)
  | work done => exact done.queue
  | enter op _ _ drained =>
    obtain ⟨inside, _, dropped⟩ := ArgQueue.drain_ok drained
    exact .inr ⟨_, ⟨inside, dropped⟩, fun _ => .inl op⟩
  | crash raised => exact .inr (drawn_raised seated raised)
  | recover raised => exact .inr (drawn_raised seated raised)

theorem Move.call_draws (moved : Move m i m') (op : i.opcode = .call) :
    ∃ count, Lost count m.queue m'.queue ∧ ((∀ crash left, m.perform i ≠ .fault crash left) →
      m'.wheel = .ofValues (m.queue.toList.take count)) := by
  have kept : ∀ {cause q}, m.Raises i cause q → Lost 0 m.queue q := by
    intro cause q raised
    rw [perform_keeps (by simp [op]) raised]
    exact lost_none m.queue
  cases moved with
  | enter _ _ _ drained =>
    obtain ⟨inside, taken, dropped⟩ := ArgQueue.drain_ok drained
    exact ⟨_, ⟨inside, dropped⟩, fun _ => taken ▸ rfl⟩
  | crash raised => exact ⟨0, kept raised, fun sound => absurd raised (sound _ _)⟩
  | recover raised => exact ⟨0, kept raised, fun sound => absurd raised (sound _ _)⟩
  | work done => exact absurd op done.not_call
  | stay other => simp [op, Opcode.writers] at other
  | steer other | jump other | skip other | leave other | miss other => simp [op] at other

theorem Dispatches.unique {j : Instruction} (one : m.Dispatches i) (other : m.Dispatches j) :
    i = j := by
  have same := one.1.symm.trans other.1
  simpa using same

def next? (m : Machine) : Option Instruction :=
  (m.program.get? m.cursor).filter fun _ => m.limit.all fun limit => m.steps < limit

theorem next_iff : m.next? = some i ↔ m.Dispatches i := by
  simp [next?, Dispatches, Option.filter_eq_some_iff, Option.all_eq_true]

def staged (m : Machine) : List Value :=
  match m.next? with
  | none => []
  | some i => if i.opcode = .addarg then m.wheel.current.toOption.toList else []

theorem staged_of_addarg {v : Value} (dispatches : m.Dispatches i) (op : i.opcode = .addarg)
    (under : m.wheel.current = .ok v) : m.staged = [v] := by
  simp [staged, next_iff.mpr dispatches, op, under, Except.toOption]

theorem staged_cases (m : Machine) :
    m.staged = [] ∨
      ∃ i v, m.Dispatches i ∧ i.opcode = .addarg ∧ m.wheel.current = .ok v ∧ m.staged = [v] := by
  by_cases stages : ∃ i v, m.Dispatches i ∧ i.opcode = .addarg ∧ m.wheel.current = .ok v
  · obtain ⟨i, v, dispatches, op, under⟩ := stages
    exact .inr ⟨i, v, dispatches, op, under, staged_of_addarg dispatches op under⟩
  · left
    unfold staged
    split
    · rfl
    · rename_i i next
      split
      · rename_i op
        cases under : m.wheel.current with
        | error cause => rfl
        | ok v => exact absurd ⟨i, v, next_iff.mp next, op, under⟩ stages
      · rfl

def Succeeds (m : Machine) (i : Instruction) : Prop :=
  ∀ crash m', m.counted.perform i ≠ .fault crash m'

theorem succeeds_addarg (op : i.opcode = .addarg) :
    m.Succeeds i ↔ ∃ v, m.wheel.current = .ok v := by
  have same : m.counted.wheel = m.wheel := rfl
  cases under : m.wheel.current with
  | ok v => simp [Succeeds, perform, op, same, under]
  | error cause => simp [Succeeds, perform, op, same, under, fail]

end Machine

namespace Session

variable {σ : Type} [Host σ] {s : Session σ} {i : Instruction}

theorem step_addarg {v : Value} (dispatches : s.machine.Dispatches i) (op : i.opcode = .addarg)
    (under : s.machine.wheel.current = .ok v) :
    s.step.1.machine.queue = s.machine.queue.push v := by
  obtain ⟨m, h⟩ := s
  have same : m.counted.wheel = m.wheel := rfl
  have turned : m.turn = .go { m.counted with queue := m.queue.push v }.advance := by
    rw [Machine.turn_of_dispatches dispatches,
      Machine.dispatch_sound ((Machine.succeeds_addarg op).mpr ⟨v, under⟩)]
    simp only [Machine.perform, op, same, under]
    rfl
  simp only [step_mk, turned]
  rfl

/-- A step that adds nothing leaves the queue without some of its first values; a call that goes
through has put these on the new wheel. -/
theorem step_draws (wf : s.machine.WellFormed) (silent : s.machine.staged = []) :
    ∃ count, Machine.Lost count s.machine.queue s.step.1.machine.queue ∧
      (0 < count → ∃ i, s.machine.Dispatches i ∧ i.Draws) ∧
      ∀ i, s.machine.Dispatches i → i.opcode = .call → s.machine.Succeeds i →
        s.step.1.machine.wheel = .ofValues (s.machine.queue.toList.take count) := by
  by_cases busy : ∃ i, s.machine.Dispatches i
  · obtain ⟨i, dispatches⟩ := busy
    have moved := step_move dispatches
    by_cases op : i.opcode = .call
    · obtain ⟨count, lost, passed⟩ := moved.call_draws op
      refine ⟨count, lost, fun _ => ⟨i, dispatches, .inl op⟩, ?_⟩
      intro j other _ success
      obtain rfl := dispatches.unique other
      exact passed success
    · rcases moved.queue wf.counted.top with ⟨stages, v, under, _⟩ | ⟨count, lost, draws⟩
      · simp [Machine.staged_of_addarg dispatches stages under] at silent
      · refine ⟨count, lost, fun some => ⟨i, dispatches, draws some⟩, ?_⟩
        intro j other call
        obtain rfl := dispatches.unique other
        exact absurd call op
  · have idle := not_exists.mp busy
    refine ⟨0, ?_, by simp, fun i dispatches => absurd dispatches (idle i)⟩
    rw [step_idle idle]
    exact Machine.lost_none _

def drawn (s : Session σ) : List Value :=
  s.machine.queue.toList.take
    (s.machine.queue.toList.length - s.step.1.machine.queue.toList.length)

def allStaged (s : Session σ) : Nat → List Value
  | 0 => []
  | n + 1 => s.allStaged n ++ (s.after n).machine.staged

def allDrawn (s : Session σ) : Nat → List Value
  | 0 => []
  | n + 1 => s.allDrawn n ++ (s.after n).drawn

theorem step_balanced (wf : s.machine.WellFormed) :
    s.drawn ++ s.step.1.machine.queue.toList = s.machine.queue.toList ++ s.machine.staged := by
  rcases Machine.staged_cases s.machine with silent | ⟨i, v, dispatches, op, under, added⟩
  · obtain ⟨count, ⟨inside, dropped⟩, _⟩ := step_draws wf silent
    have gone : s.machine.queue.toList.length - s.step.1.machine.queue.toList.length = count := by
      rw [dropped, List.length_drop]
      omega
    rw [drawn, gone, dropped, silent, List.take_append_drop, List.append_nil]
  · have pushed : s.step.1.machine.queue.toList = s.machine.queue.toList ++ [v] := by
      rw [step_addarg dispatches op under, ArgQueue.toList_push]
    have none : s.drawn = [] := by
      rw [drawn, pushed, List.length_append]
      simp
    rw [none, pushed, added, List.nil_append]

theorem history_balanced (begun : s.machine.WellFormed) (n : Nat) :
    s.allDrawn n ++ (s.after n).machine.queue.toList =
      s.machine.queue.toList ++ s.allStaged n := by
  induction n with
  | zero => simp [allDrawn, allStaged, after]
  | succ n ih =>
    have balanced := step_balanced (after_well_formed begun n)
    calc s.allDrawn (n + 1) ++ (s.after (n + 1)).machine.queue.toList
      _ = s.allDrawn n ++ ((s.after n).drawn ++ (s.after n).step.1.machine.queue.toList) :=
        List.append_assoc _ _ _
      _ = (s.allDrawn n ++ (s.after n).machine.queue.toList) ++ (s.after n).machine.staged := by
        rw [balanced, List.append_assoc]
      _ = s.machine.queue.toList ++ s.allStaged (n + 1) := by
        rw [ih, List.append_assoc, allStaged]

/-- In every state of every run: a step that puts a value aside adds it at the end of the queue, and
every other step takes a number of values from its front, if any, for one of the instructions that
do so; a call hands exactly these over on a fresh wheel. Hence all values taken so far and then
those still queued are all values added so far. -/
theorem queue_is_conserved (program : Program) (limit : Option Nat) (host : σ) (n : Nat) :
    let fresh := start program limit host
    let s := fresh.after n
    (∀ i, s.machine.Dispatches i → i.opcode = .addarg → s.machine.Succeeds i →
        ∃ v, s.machine.wheel.current = .ok v ∧
          s.step.1.machine.queue.toList = s.machine.queue.toList ++ [v]) ∧
      ((∀ i, s.machine.Dispatches i → i.opcode = .addarg → ¬ s.machine.Succeeds i) →
        ∃ count, count ≤ s.machine.queue.toList.length ∧
          s.step.1.machine.queue.toList = s.machine.queue.toList.drop count ∧
          (0 < count → ∃ i, s.machine.Dispatches i ∧ i.Draws) ∧
          ∀ i, s.machine.Dispatches i → i.opcode = .call → s.machine.Succeeds i →
            s.step.1.machine.wheel =
              { values := (s.machine.queue.toList.take count).toArray, cursor := 0,
                direction := .forward, flag := false }) ∧
      fresh.allDrawn n ++ s.machine.queue.toList = fresh.allStaged n := by
  intro fresh s
  have begun := Machine.start_well_formed program limit
  refine ⟨?_, ?_, ?_⟩
  · intro i dispatches op success
    obtain ⟨v, under⟩ := (Machine.succeeds_addarg op).mp success
    refine ⟨v, under, ?_⟩
    rw [step_addarg dispatches op under, ArgQueue.toList_push]
  · intro failing
    have silent : s.machine.staged = [] := by
      rcases Machine.staged_cases s.machine with silent | ⟨i, v, dispatches, op, under, _⟩
      · exact silent
      · exact absurd ((Machine.succeeds_addarg op).mpr ⟨v, under⟩) (failing i dispatches op)
    obtain ⟨count, ⟨inside, dropped⟩, draws, passed⟩ :=
      step_draws (after_well_formed (s := fresh) begun n) silent
    exact ⟨count, inside, dropped, draws, passed⟩
  · exact history_balanced (s := fresh) begun n

def lentArguments : Program :=
  ⟨#[{ opcode := .define, text := "f" }, { opcode := .ret }, { opcode := .newv, int := 1 },
    { opcode := .addarg }, { opcode := .newv, int := 2 }, { opcode := .movvw, int := 1 },
    { opcode := .addarg }, { opcode := .addarg }, { opcode := .call, int := 2, text := "f" }]⟩

def lentStart : Session Console := start lentArguments none {}

theorem lent_arguments_handed_over :
    (∀ i, (lentStart.after 7).machine.Dispatches i → i.opcode = .addarg →
        ¬ (lentStart.after 7).machine.Succeeds i) ∧
      (lentStart.after 8).machine.wheel.values = #[.integer 1, .integer 2] ∧
      (lentStart.after 8).machine.queue.toList = [.integer 2] ∧
      lentStart.allDrawn 8 ++ [.integer 2] = [.integer 1, .integer 2, .integer 2] := by
  have call : (lentStart.after 7).machine.Dispatches { opcode := .call, int := 2, text := "f" } :=
    Machine.dispatches_unlimited rfl rfl
  have failing : ∀ i, (lentStart.after 7).machine.Dispatches i → i.opcode = .addarg →
      ¬ (lentStart.after 7).machine.Succeeds i := by
    intro i other op
    obtain rfl := call.unique other
    simp at op
  have gone : ∃ m, (lentStart.after 7).machine.counted.perform
      { opcode := .call, int := 2, text := "f" } = .go m := ⟨_, rfl⟩
  have success : (lentStart.after 7).machine.Succeeds
      { opcode := .call, int := 2, text := "f" } := by
    obtain ⟨left, gone⟩ := gone
    simp [Machine.Succeeds, gone]
  obtain ⟨count, _, dropped, _, passed⟩ :=
    (queue_is_conserved lentArguments none ({} : Console) 7).2.1 failing
  have two : count = 2 := by
    have lengths := congrArg List.length dropped
    rw [List.length_drop] at lengths
    have shorter : 1 = 3 - count := lengths
    omega
  subst two
  have handed := passed _ call rfl success
  have whole := (queue_is_conserved lentArguments none ({} : Console) 8).2.2
  exact ⟨failing, congrArg Wheel.values handed, rfl, whole⟩

end Session
end Wheelwork
