import Wheelwork.Proofs.PrintedForms
import Wheelwork.Proofs.Refusals
import Wheelwork.Proofs.WellFormed

/-!
The handling of faults. What becomes of a failing instruction is decided by the instruction at the
next place alone: a handler that takes the kind of the fault sends the cursor around the program,
any other handler is passed over, and without a handler the run ends. Refusals of the host and a
limit that is reached are no faults, and no handler is looked for.
-/
namespace Wheelwork

def FaultKind.Names (kind : FaultKind) (word : String) : Prop :=
  word = kind.name ∨ word = kind.legacyName

theorem FaultKind.ofName_iff {word : String} {kind : FaultKind} :
    ofName? word = some kind ↔ kind.Names word := by
  constructor
  · intro found
    have spelled := List.find?_some found
    simp only [Bool.or_eq_true, beq_iff_eq] at spelled
    exact spelled.imp Eq.symm Eq.symm
  · intro names
    rcases names with rfl | rfl <;> cases kind <;> rfl

theorem Ring.index_eq {size : Nat} (filled : 0 < size) (position : Nat) (direction : Direction)
    (steps : Int64) :
    (Ring.index position direction steps size : Int) =
      Int.fmod (position + direction.sign * steps.toInt) size := by
  have lower := Int.emod_nonneg ((position : Int) + displacement direction steps)
    (show (size : Int) ≠ 0 by omega)
  rw [Int.fmod_eq_emod_of_nonneg _ (Int.natCast_nonneg size)]
  exact Int.toNat_of_nonneg lower

theorem Load.handler_named {source : Source} {p : Program} {handler : Instruction}
    (loaded : (load source).program = some p) (member : handler ∈ p.instructions)
    (op : handler.opcode = .errh) :
    handler.text = "" ∨ ∃ kind : FaultKind, kind.Names handler.text := by
  rw [(program_iff.mp loaded).2, List.mem_toArray] at member
  rcases (Load.sayable member).kind op with empty | known
  · exact .inl empty
  · obtain ⟨kind, found⟩ := Option.ne_none_iff_exists'.mp known
    exact .inr ⟨kind, FaultKind.ofName_iff.mp found⟩

namespace Machine

variable {m : Machine} {handler : Instruction} {crash : Crash}

theorem handles_iff {kind : FaultKind} :
    handles handler kind = true ↔ handler.text = "" ∨ kind.Names handler.text := by
  simp [handles, Instruction.hasText, FaultKind.ofName_iff]

theorem recover_handled (next : m.program.get? (m.cursor + 1) = some handler)
    (op : handler.opcode = .errh) :
    m.recover crash = .ok (m.goto (m.landing handler crash.cause.kind)) := by
  rcases recover_cases m crash with fatal | ⟨found, there, _, handled⟩
  · simp only [recover, next, op, ne_eq, not_true_eq_false, ↓reduceIte] at fatal
    split at fatal <;> cases fatal
  · obtain rfl : found = handler := Option.some.inj (there.symm.trans next)
    exact handled

theorem recover_unhandled
    (other : ∀ handler, m.program.get? (m.cursor + 1) = some handler → handler.opcode ≠ .errh) :
    m.recover crash = .error crash := by
  rcases recover_cases m crash with fatal | ⟨handler, next, op, _⟩
  · exact fatal
  · exact absurd op (other handler next)

theorem progress_inside (inside : m.cursor < m.program.size) : m.progress = .running := by
  simp [progress, atEnd, inside]

end Machine

namespace Session

variable {σ : Type} [Host σ] {s : Session σ} {i handler : Instruction} {crash : Crash}

theorem step_handled (dispatches : s.machine.Dispatches i) (fails : s.Faults i crash)
    (next : s.machine.program.get? (s.machine.cursor + 1) = some handler)
    (op : handler.opcode = .errh) : ∃ q h,
      let left := (s.machine.counted.requeue q).goto (s.machine.landing handler crash.cause.kind)
      s.step = (⟨left, h⟩, left.progress) := by
  obtain ⟨_, q, h, stepped⟩ := fails.settled dispatches
  simp only [Machine.recover_handled (m := s.machine.counted.requeue q) next op] at stepped
  exact ⟨q, h, stepped⟩

theorem step_unhandled (dispatches : s.machine.Dispatches i) (fails : s.Faults i crash)
    (other : ∀ handler, s.machine.program.get? (s.machine.cursor + 1) = some handler →
      handler.opcode ≠ .errh) :
    ∃ q h, s.step = (⟨s.machine.counted.requeue q, h⟩, .failed (.fatal crash)) := by
  obtain ⟨_, q, h, stepped⟩ := fails.settled dispatches
  simp only [Machine.recover_unhandled (m := s.machine.counted.requeue q) other] at stepped
  exact ⟨q, h, stepped⟩

theorem step_taken (dispatches : s.machine.Dispatches i) (fails : s.Faults i crash)
    (next : s.machine.program.get? (s.machine.cursor + 1) = some handler)
    (op : handler.opcode = .errh)
    (takes : handler.text = "" ∨ crash.cause.kind.Names handler.text) :
    s.step.2 = .running ∧ (s.step.1.machine.cursor : Int) =
      Int.fmod (s.machine.cursor + s.machine.direction.sign * handler.int.toInt)
        s.machine.program.size := by
  have lands : s.machine.landing handler crash.cause.kind = s.machine.relative handler.int := by
    simp only [Machine.landing, Machine.handles_iff.mpr takes, ↓reduceIte]
  have filled : 0 < s.machine.program.size := Nat.zero_lt_of_lt (Program.lt_of_get next)
  have inside := Machine.relative_lt dispatches.1 handler.int
  obtain ⟨q, h, stepped⟩ := step_handled dispatches fails next op
  rw [stepped, lands]
  constructor
  · exact Machine.progress_inside inside
  · exact Ring.index_eq filled _ _ _

/-- Any other handler is passed over, whatever its argument; it may be the last instruction. -/
theorem step_passed (dispatches : s.machine.Dispatches i) (fails : s.Faults i crash)
    (next : s.machine.program.get? (s.machine.cursor + 1) = some handler)
    (op : handler.opcode = .errh)
    (passes : ¬ (handler.text = "" ∨ crash.cause.kind.Names handler.text)) :
    s.step.1.machine.cursor = s.machine.cursor + 2 ∧
      s.step.2 = if s.machine.cursor + 2 = s.machine.program.size then .finished .endOfStream
        else .running := by
  have lands : s.machine.landing handler crash.cause.kind = s.machine.cursor + 2 := by
    have refuses : Machine.handles handler crash.cause.kind ≠ true := mt Machine.handles_iff.mp passes
    simp only [Machine.landing, refuses, Bool.false_eq_true, ↓reduceIte]
  have inside := Program.lt_of_get next
  obtain ⟨q, h, stepped⟩ := step_handled dispatches fails next op
  rw [stepped, lands]
  refine ⟨rfl, ?_⟩
  by_cases last : s.machine.cursor + 2 = s.machine.program.size
  · rw [if_pos last]
    have ended : s.machine.program.size ≤ s.machine.cursor + 2 := by omega
    simp [Machine.progress, Machine.atEnd, Machine.goto, Machine.requeue, Machine.counted, ended]
  · rw [if_neg last]
    have within : s.machine.cursor + 2 < s.machine.program.size := by omega
    exact Machine.progress_inside within

/-- A failing instruction is taken by a handler at the next place that names its kind or none, passed
over by any other handler there, and fatal without one. A host that refuses and a limit that is
reached end the run whatever comes next. In a loaded program a handler that passes a fault over
names another kind. -/
theorem next_instruction_decides_recovery (s : Session σ) :
    let m := s.machine
    (∀ i crash, m.Dispatches i → s.Faults i crash →
      (∀ handler, m.program.get? (m.cursor + 1) = some handler → handler.opcode = .errh →
        (handler.text = "" ∨ crash.cause.kind.Names handler.text →
          s.step.2 = .running ∧ (s.step.1.machine.cursor : Int) =
            Int.fmod (m.cursor + m.direction.sign * handler.int.toInt) m.program.size) ∧
        (¬ (handler.text = "" ∨ crash.cause.kind.Names handler.text) →
          s.step.1.machine.cursor = m.cursor + 2 ∧
            s.step.2 = if m.cursor + 2 = m.program.size then .finished .endOfStream
              else .running)) ∧
      ((∀ handler, m.program.get? (m.cursor + 1) = some handler → handler.opcode ≠ .errh) →
        s.step.2 = .failed (.fatal crash) ∧ crash.cursor = m.cursor ∧ crash.instruction = i ∧
          s.step.1.machine.cursor = m.cursor)) ∧
    (∀ reason, m.turn.Refused s.host reason →
      s.step.2 = .failed (.host reason) ∧ s.step.1.machine = m.counted) ∧
    (∀ i limit, m.program.get? m.cursor = some i → m.limit = some limit → limit ≤ m.steps →
      s.step = (s, .failed (.stepLimit limit))) ∧
    ∀ source, (load source).program = some m.program → ∀ handler ∈ m.program.instructions,
      handler.opcode = .errh →
        (handler.text = "" ∨ ∃ kind : FaultKind, kind.Names handler.text) ∧
        ∀ kind : FaultKind, ¬ (handler.text = "" ∨ kind.Names handler.text) →
          ∃ other ≠ kind, other.Names handler.text := by
  intro m
  refine ⟨?_, ?_, ?_, ?_⟩
  · intro i crash dispatches fails
    constructor
    · intro handler next op
      exact ⟨step_taken dispatches fails next op, step_passed dispatches fails next op⟩
    · intro other
      have located := (fails.settled dispatches).1
      obtain ⟨q, h, stepped⟩ := step_unhandled dispatches fails other
      rw [stepped]
      exact ⟨rfl, congrArg Crash.cursor located, congrArg Crash.instruction located, rfl⟩
  · intro reason refused
    have failed := step_refused refused
    exact ⟨failed, step_failed failed⟩
  · intro i limit current bound used
    exact step_spent current bound used
  · intro source loaded handler member op
    have named : handler.text = "" ∨ ∃ kind : FaultKind, kind.Names handler.text :=
      Load.handler_named loaded member op
    refine ⟨named, ?_⟩
    intro kind passes
    obtain ⟨other, names⟩ := named.resolve_left fun empty => passes (.inl empty)
    refine ⟨other, ?_, names⟩
    rintro rfl
    exact passes (.inr names)

def handledBody : Program :=
  ⟨#[{ opcode := .define, text := "f" }, { opcode := .whldirc, int := -1 },
    { opcode := .movvw, int := 3 },
    { opcode := .errh, int := Int64.minValue, text := "EMPTY_VWHEEL_ERROR" },
    { opcode := .ret }, { opcode := .call, text := "f" }]⟩

def handledRun : Session Console := (start handledBody none {}).after 3

def passedBody : Program :=
  ⟨#[{ opcode := .movvw, int := 1, line := 1 },
    { opcode := .errh, int := 7, text := "DIVISION_BY_ZERO", line := 2 }]⟩

def guardedLine : Program := ⟨#[{ opcode := .out, text := "x" }, { opcode := .errh, int := 1 }]⟩

def mute : Rationed Console := { inner := {}, writes := some 0 }

theorem handlers_decide :
    let passed := start passedBody none ({} : Console)
    let fatal := start ⟨#[{ opcode := .movvw, int := 1, line := 7 }]⟩ none ({} : Console)
    (handledRun.step.2 = .running ∧ handledRun.step.1.machine.cursor = 4) ∧
      (load ⟨"a", "MOVVW 1\nERRH 7 DIVISION_BY_ZERO"⟩).program = some passedBody ∧
      (passed.step.1.machine.cursor = 2 ∧ passed.step.2 = .finished .endOfStream) ∧
      (∃ other ≠ FaultKind.emptyWheel, other.Names "DIVISION_BY_ZERO") ∧
      fatal.step.2 = .failed (.fatal ⟨.emptyWheel, 0, { opcode := .movvw, int := 1, line := 7 }⟩) ∧
      (start guardedLine none mute).step.2 = .failed (.host ⟨"write refused"⟩) ∧
      (start guardedLine (some 0) mute).step.2 = .failed (.stepLimit 0) := by
  intro passed fatal
  have faulted : ∃ failed, handledRun.machine.counted.perform { opcode := .movvw, int := 3 } =
      .fault ⟨.emptyWheel, 2, { opcode := .movvw, int := 3 }⟩ failed := ⟨_, rfl⟩
  obtain ⟨failed, faulted⟩ := faulted
  have taken := (((next_instruction_decides_recovery handledRun).1 _ _
    (Machine.dispatches_unlimited rfl rfl) (.raised faulted)).1 _ rfl rfl).1 (.inr (.inr rfl))
  have lands : (handledRun.step.1.machine.cursor : Int) = 4 := taken.2.trans (by decide)
  have loaded : (load ⟨"a", "MOVVW 1\nERRH 7 DIVISION_BY_ZERO"⟩).program = some passedBody := by
    with_unfolding_all rfl
  have differs : ¬ ("DIVISION_BY_ZERO" = "" ∨ FaultKind.emptyWheel.Names "DIVISION_BY_ZERO") := by
    simp [FaultKind.Names, FaultKind.name, FaultKind.legacyName]
  obtain ⟨passes, _, _, names⟩ := next_instruction_decides_recovery passed
  have passedOver := ((passes _ ⟨.emptyWheel, 0, { opcode := .movvw, int := 1, line := 1 }⟩
    (Machine.dispatches_unlimited rfl rfl) (.raised rfl)).1 _ rfl rfl).2 differs
  have kinds := names _ loaded { opcode := .errh, int := 7, text := "DIVISION_BY_ZERO", line := 2 }
    (by simp [passed, start, Machine.start, passedBody]) rfl
  have ends := ((next_instruction_decides_recovery fatal).1 _
    ⟨.emptyWheel, 0, { opcode := .movvw, int := 1, line := 7 }⟩
    (Machine.dispatches_unlimited rfl rfl) (.raised rfl)).2 (by intro handler next; cases next)
  have refused := (next_instruction_decides_recovery (start guardedLine none mute)).2.1
    ⟨"write refused"⟩ (.print _ rfl)
  have spent := (next_instruction_decides_recovery (start guardedLine (some 0) mute)).2.2.1 _ 0
    rfl rfl (Nat.le_refl 0)
  refine ⟨⟨taken.1, by omega⟩, loaded, passedOver, kinds.2 .emptyWheel differs, ends.1, refused.1, ?_⟩
  rw [spent]

end Session
end Wheelwork
