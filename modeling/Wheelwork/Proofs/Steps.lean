import Wheelwork.Machine.Session

/-!
What one step can make of a machine, whatever its instruction and its host do, and what a run of
steps keeps. `Move` is the inversion of the machine's turn: every invariant of a run is one case
analysis of it.
-/
namespace Wheelwork

def Arithmetic.opcode : Arithmetic → Opcode
  | .add => .add
  | .sub => .sub
  | .mul => .mul
  | .div => .div

def Opcode.writers : List Opcode := [.out, .argview, .dbgprintv, .dbgprintc]

namespace Host

variable {σ : Type}

theorem bind_run {α β : Type} (x : ExceptT HostError (StateM σ) α)
    (f : α → ExceptT HostError (StateM σ) β) (h : σ) :
    (x >>= f) h =
      match x h with
      | (.ok a, h) => f a h
      | (.error e, h) => (.error e, h) := by
  change ExceptT.bindCont f (x h).1 (x h).2 = _
  rcases x h with ⟨e | a, h⟩ <;> rfl

variable [Host σ]

theorem writeLines_cons (line : String) (lines : List String) (h : σ) :
    writeLines (line :: lines) h =
      match writeLine line h with
      | (.ok _, h) => writeLines lines h
      | (.error e, h) => (.error e, h) := by
  have one : (services σ).writeLine line h = writeLine line h := rfl
  rw [writeLines, Services.writeLines, bind_run, one]
  rcases writeLine line h with ⟨e | done, h⟩ <;> rfl

theorem askLine_eq (prompt : Option String) (h : σ) :
    askLine prompt h =
      match writeLines prompt.toList h with
      | (.error e, h) => (.error e, h)
      | (.ok _, h) =>
        match readLine h with
        | (.ok line, h) => (.ok (line.getD ""), h)
        | (.error e, h) => (.error e, h) := by
  have written : (services σ).writeLines prompt.toList h = writeLines prompt.toList h := rfl
  unfold askLine Services.askLine
  rw [bind_run, written]
  rcases writeLines prompt.toList h with ⟨e | done, h⟩
  · rfl
  · have read : (services σ).readLine h = readLine h := rfl
    simp only
    rw [bind_run, read]
    rcases readLine h with ⟨e | line, h⟩ <;> rfl

end Host

def Machine.settle (m : Machine) : Except Crash Machine → Machine × Progress
  | .ok m' => (m', m'.progress)
  | .error crash => (m, .failed (.fatal crash))

/-- A step on a host: what a turn asks for is done before the machine moves on. -/
theorem Session.step_mk {σ : Type} [Host σ] (m : Machine) (h : σ) :
    step ⟨m, h⟩ =
      match m.turn with
      | .go m => (⟨m, h⟩, m.progress)
      | .print lines m =>
        match Host.writeLines lines h with
        | (.ok _, h) => (⟨m.advance, h⟩, m.advance.progress)
        | (.error e, h) => (⟨m, h⟩, .failed (.host e))
      | .ask prompt i m =>
        match Host.askLine prompt h with
        | (.ok line, h) =>
          (⟨(m.settle (m.answer i line)).1, h⟩, (m.settle (m.answer i line)).2)
        | (.error e, h) => (⟨m, h⟩, .failed (.host e))
      | .pause millis m => (⟨m.advance, Host.sleep millis h⟩, m.advance.progress)
      | .exit how m => (⟨m, h⟩, .finished how)
      | .fault crash m => (⟨m, h⟩, .failed (.fatal crash))
      | .spent limit m => (⟨m, h⟩, .failed (.stepLimit limit)) := by
  have bound : ∀ {α β : Type} (x : StateM σ α) (f : α → StateM σ β),
      (x >>= f) h = f (x h).1 (x h).2 := fun _ _ => rfl
  unfold step Machine.step
  cases m.turn with
  | print lines m =>
    have written : ((Host.services σ).writeLines lines).run h = Host.writeLines lines h := rfl
    simp only [bound, written]
    rcases Host.writeLines lines h with ⟨e | done, h⟩ <;> rfl
  | ask prompt i m =>
    have asked : ((Host.services σ).askLine prompt).run h = Host.askLine prompt h := rfl
    simp only [bound, asked]
    rcases Host.askLine prompt h with ⟨e | line, h⟩
    · rfl
    · simp only
      cases m.answer i line <;> rfl
  | go m | pause millis m | exit how m | fault crash m | spent limit m => rfl

namespace Machine

def counted (m : Machine) : Machine := { m with steps := m.steps + 1 }

def Dispatches (m : Machine) (i : Instruction) : Prop :=
  m.program.get? m.cursor = some i ∧ ∀ limit, m.limit = some limit → m.steps < limit

theorem dispatches_unlimited {m : Machine} {i : Instruction}
    (current : m.program.get? m.cursor = some i) (unlimited : m.limit = none) :
    m.Dispatches i := ⟨current, by simp [unlimited]⟩

def requeue (m : Machine) (q : ArgQueue) : Machine := { m with queue := q }

/-- The instruction fails for this cause and leaves this queue; nothing else has changed. -/
def Raises (m : Machine) (i : Instruction) (cause : Fault) (q : ArgQueue) : Prop :=
  m.perform i = .fault ⟨cause, m.cursor, i⟩ (m.requeue q)

def having (m : Machine) (w : Wheel) (q : ArgQueue) : Machine :=
  { m with frames := { m.frames with active := w }, queue := q }

/-- What an instruction that goes on to the next one has made of the active wheel and the queue. -/
inductive Works (m : Machine) (i : Instruction) : Wheel → ArgQueue → Prop where
  /-- A branch not taken, a handler met in passing, lines written or a time waited. -/
  | pass (op : i.opcode ∈ Opcode.writers ∨ i.opcode ∈ [.jiz, .errh, .del]) :
      Works m i m.wheel m.queue
  | append (op : i.opcode = .newv) :
      Works m i (m.wheel.push (if i.hasText then .text i.text else .integer i.int)) m.queue
  | rotate {w : Wheel} (op : i.opcode = .movvw) (moved : m.wheel.rotate i.int = .ok w) :
      Works m i w m.queue
  | reverse {d : Direction} (op : i.opcode = .whldirv) (named : Direction.ofArg? i.int = some d) :
      Works m i (m.wheel.setDirection d) m.queue
  | stage {v : Value} (op : i.opcode = .addarg) (under : m.wheel.current = .ok v) :
      Works m i m.wheel (m.queue.push v)
  | compare {flag : Bool} {q : ArgQueue} (op : i.opcode = .cmp)
      (compared : comparison i m.wheel m.queue = (.ok flag, q)) :
      Works m i (m.wheel.setFlag flag) q
  | compute {a : Arithmetic} {v old : Value} {q : ArgQueue} (op : i.opcode = a.opcode)
      (computed : a.compute i m.wheel m.queue = (.ok v, q)) (under : m.wheel.current = .ok old) :
      Works m i (m.wheel.put v) q
  | wait {n : Int64} {q : ArgQueue} (op : i.opcode = .del) (args : i.args = true)
      (popped : m.queue.pop = .ok (.integer n, q)) : Works m i m.wheel q
  | answer {line : String} (op : i.opcode = .inp) (filled : m.wheel.isEmpty = false) :
      Works m i (m.wheel.put (.ofInput line)) m.queue

def remaining (m : Machine) : Frames :=
  match m.frames.pop? with
  | some (_, frames) => frames
  | none => m.frames

def landing (m : Machine) (handler : Instruction) (kind : FaultKind) : Nat :=
  if handles handler kind then m.relative handler.int else m.cursor + 2

/-- What an instruction and the handling of its fault can make of a machine. -/
inductive Move (m : Machine) (i : Instruction) : Machine → Prop where
  /-- A return with no call pending, a host that refuses, or a line that finds no place. -/
  | stay (op : i.opcode ∈ Opcode.writers ∨ i.opcode ∈ [.ret, .inp]) : Move m i m
  | work {w : Wheel} {q : ArgQueue} (done : Works m i w q) : Move m i (m.having w q).advance
  | steer {d : Direction} (op : i.opcode = .whldirc) (named : Direction.ofArg? i.int = some d) :
      Move m i { m with direction := d }.advance
  | jump (op : i.opcode = .jmp ∨ i.opcode = .jiz ∧ m.wheel.flag = false) :
      Move m i (m.goto (m.relative i.int))
  | skip {target : Nat} (op : i.opcode = .define) (closed : m.afterReturn? = some target) :
      Move m i (m.goto target)
  | enter {f : FunctionEntry} {arguments : List Value} {q : ArgQueue} (op : i.opcode = .call)
      (found : m.functions.find i.text = .ok f) (count : 0 ≤ argumentCount i f)
      (drained : m.queue.drain (argumentCount i f).toInt.toNat = .ok (arguments, q)) :
      Move m i (m.enter f.entry arguments q)
  | leave {target : Nat} {calls : List Nat} (op : i.opcode = .ret)
      (pending : m.calls = target :: calls) :
      Move m i { m with frames := m.remaining, calls := calls, cursor := target }
  | crash {cause : Fault} {q : ArgQueue} (raised : m.Raises i cause q) :
      Move m i (m.requeue q)
  | recover {cause : Fault} {q : ArgQueue} {handler : Instruction} (raised : m.Raises i cause q)
      (next : m.program.get? (m.cursor + 1) = some handler) (op : handler.opcode = .errh) :
      Move m i ((m.requeue q).goto (m.landing handler cause.kind))
  /-- A line was read for a wheel whose cursor is on no value, and a handler took the fault. -/
  | miss {cause : Fault} {handler : Instruction} (op : i.opcode = .inp)
      (filled : m.wheel.isEmpty = false) (missing : m.wheel.current = .error cause)
      (next : m.program.get? (m.cursor + 1) = some handler) (handles : handler.opcode = .errh) :
      Move m i (m.goto (m.landing handler cause.kind))

end Machine

inductive Effect.Leaves : Effect → Machine → Prop where
  | gone (m : Machine) : Leaves (.go m) m
  | printed (lines : List String) (m : Machine) : Leaves (.print lines m) m.advance
  | unprinted (lines : List String) (m : Machine) : Leaves (.print lines m) m
  | answered {i : Instruction} {line : String} {m m' : Machine} (prompt : Option String)
      (stored : m.answer i line = .ok m') : Leaves (.ask prompt i m) m'
  | unanswered (prompt : Option String) (i : Instruction) (m : Machine) :
      Leaves (.ask prompt i m) m
  | waited (millis : Nat) (m : Machine) : Leaves (.pause millis m) m.advance
  | ended (how : Exit) (m : Machine) : Leaves (.exit how m) m
  | failed (crash : Crash) (m : Machine) : Leaves (.fault crash m) m
  | spent (limit : Nat) (m : Machine) : Leaves (.spent limit m) m

theorem step_leaves {σ : Type} [Host σ] (s : Session σ) :
    s.machine.turn.Leaves s.step.1.machine := by
  obtain ⟨m, h⟩ := s
  rw [Session.step_mk]
  change m.turn.Leaves _
  cases m.turn with
  | go m => exact .gone m
  | print lines m =>
    simp only
    split
    · exact .printed lines m
    · exact .unprinted lines m
  | ask prompt i m =>
    simp only
    split
    · rename_i line h' _
      cases stored : m.answer i line with
      | ok m' => exact .answered prompt stored
      | error crash => exact .unanswered prompt i m
    · exact .unanswered prompt i m
  | pause millis m => exact .waited millis m
  | exit how m => exact .ended how m
  | fault crash m => exact .failed crash m
  | spent limit m => exact .spent limit m

namespace Machine

theorem recover_cases (m : Machine) (crash : Crash) :
    m.recover crash = .error crash ∨
      ∃ handler, m.program.get? (m.cursor + 1) = some handler ∧ handler.opcode = .errh ∧
        m.recover crash = .ok (m.goto (m.landing handler crash.cause.kind)) := by
  unfold recover
  cases next : m.program.get? (m.cursor + 1) with
  | none => exact .inl rfl
  | some handler =>
    by_cases op : handler.opcode = .errh
    · refine .inr ⟨handler, rfl, op, ?_⟩
      simp only [op, ne_eq, not_true_eq_false, ↓reduceIte, landing]
      split <;> rfl
    · exact .inl (by simp [op])

theorem answer_cases {m m' : Machine} {i : Instruction} {line : String}
    (stored : m.answer i line = .ok m') :
    m' = (m.having (m.wheel.put (.ofInput line)) m.queue).advance ∨
      ∃ cause handler, m.wheel.current = .error cause ∧
        m.program.get? (m.cursor + 1) = some handler ∧ handler.opcode = .errh ∧
        m' = m.goto (m.landing handler cause.kind) := by
  unfold answer Wheel.setCurrent at stored
  cases under : m.wheel.current with
  | ok old =>
    simp only [under, Except.ok.injEq] at stored
    exact .inl stored.symm
  | error cause =>
    simp only [under] at stored
    rcases recover_cases m ⟨cause, m.cursor, i⟩ with fatal | ⟨handler, next, op, handled⟩
    · rw [fatal] at stored
      cases stored
    · rw [handled, Except.ok.injEq] at stored
      exact .inr ⟨cause, handler, rfl, next, op, stored.symm⟩

/-- An instruction either fails, with no more than the queue changed, or asks for nothing beyond
a move; one that asks for a line has a wheel with values and changes nothing before it is told. -/
def Accounted (m : Machine) (i : Instruction) (e : Effect) : Prop :=
  (∃ cause q, e = .fault ⟨cause, m.cursor, i⟩ (m.requeue q)) ∨
    (∀ crash m', e ≠ .fault crash m') ∧
    (∀ prompt j m', e = .ask prompt j m' → j = i ∧ m' = m ∧ m.wheel.isEmpty = false) ∧
    ∀ m', e.Leaves m' → Move m i m'

theorem accounted_fault (m : Machine) (i : Instruction) (cause : Fault) (q : ArgQueue) :
    Accounted m i (fail (m.requeue q) i cause) := .inl ⟨cause, q, rfl⟩

theorem accounted_go {m m' : Machine} {i : Instruction} (moved : Move m i m') :
    Accounted m i (.go m') := by
  refine .inr ⟨by simp, by simp, ?_⟩
  intro left leaves
  cases leaves
  exact moved

theorem accounted_work {m : Machine} {i : Instruction} {w : Wheel} {q : ArgQueue}
    (done : Works m i w q) : Accounted m i (.go (m.having w q).advance) := accounted_go (.work done)

theorem accounted_print {m : Machine} {i : Instruction} (lines : List String)
    (op : i.opcode ∈ Opcode.writers) :
    Accounted m i (.print lines m) := by
  refine .inr ⟨by simp, by simp, ?_⟩
  intro left leaves
  cases leaves with
  | printed => exact .work (.pass (.inl op))
  | unprinted => exact .stay (.inl op)

theorem accounted_pause {m : Machine} {i : Instruction} {w : Wheel} {q : ArgQueue} (millis : Nat)
    (done : Works m i w q) : Accounted m i (.pause millis (m.having w q)) := by
  refine .inr ⟨by simp, by simp, ?_⟩
  intro left leaves
  cases leaves
  exact .work done

theorem arithmetic_accounted (m : Machine) (i : Instruction) (a : Arithmetic)
    (op : i.opcode = a.opcode) : Accounted m i (m.arithmetic i a) := by
  unfold arithmetic
  rcases computed : a.compute i m.wheel m.queue with ⟨result, q⟩
  have same : wheel { m with queue := q } = m.wheel := rfl
  cases result with
  | error cause => exact accounted_fault m i cause q
  | ok v =>
    -- The result may have no place to go: the store fails after the queue was read.
    simp only [store, same]
    cases under : m.wheel.current with
    | error cause => exact accounted_fault m i cause q
    | ok old => exact accounted_work (.compute op computed under)

theorem cmp_accounted (m : Machine) (i : Instruction) (op : i.opcode = .cmp) :
    Accounted m i (m.cmp i) := by
  unfold cmp
  rcases compared : comparison i m.wheel m.queue with ⟨result, q⟩
  cases result with
  | error cause => exact accounted_fault m i cause q
  | ok flag => exact accounted_work (.compare op compared)

theorem call_accounted (m : Machine) (i : Instruction) (op : i.opcode = .call) :
    Accounted m i (m.call i) := by
  unfold call
  cases found : m.functions.find i.text with
  | error cause => exact accounted_fault m i cause m.queue
  | ok f =>
    simp only
    split
    · exact accounted_fault m i _ m.queue
    · rename_i count
      cases drained : m.queue.drain (argumentCount i f).toInt.toNat with
      | error cause => exact accounted_fault m i cause m.queue
      | ok taken => exact accounted_go (.enter op found (Int64.not_lt.mp count) drained)

theorem ret_accounted (m : Machine) (i : Instruction) (op : i.opcode = .ret) :
    Accounted m i m.ret := by
  unfold ret
  cases pending : m.calls with
  | nil =>
    refine .inr ⟨by simp, by simp, ?_⟩
    intro left leaves
    cases leaves
    exact .stay (by simp [op])
  | cons target calls => exact accounted_go (.leave op pending)

theorem delay_accounted (m : Machine) (i : Instruction) (op : i.opcode = .del) :
    Accounted m i (m.delay i) := by
  unfold delay
  split
  · rename_i args
    cases popped : m.queue.pop with
    | error cause => exact accounted_fault m i cause m.queue
    | ok taken =>
      obtain ⟨v, q⟩ := taken
      cases v with
      | integer n => exact accounted_pause _ (.wait op args popped)
      | text s => exact accounted_fault m i _ q
      | float x => exact accounted_fault m i _ q
  · exact accounted_pause _ (.pass (by simp [op]))

theorem perform_accounted (m : Machine) (i : Instruction) : Accounted m i (m.perform i) := by
  unfold perform
  cases op : i.opcode with
  | newv => exact accounted_work (.append op)
  | movvw =>
    simp only [withWheel]
    cases moved : m.wheel.rotate i.int with
    | error cause => exact accounted_fault m i cause m.queue
    | ok w => exact accounted_work (.rotate op moved)
  | whldirv =>
    simp only
    cases named : Direction.ofArg? i.int with
    | none => exact accounted_fault m i _ m.queue
    | some d => exact accounted_work (.reverse op named)
  | whldirc =>
    simp only
    cases named : Direction.ofArg? i.int with
    | none => exact accounted_fault m i _ m.queue
    | some d => exact accounted_go (.steer op named)
  | addarg =>
    simp only
    cases under : m.wheel.current with
    | error cause => exact accounted_fault m i cause m.queue
    | ok v => exact accounted_work (.stage op under)
  | cmp => exact cmp_accounted m i op
  | add => exact arithmetic_accounted m i .add op
  | sub => exact arithmetic_accounted m i .sub op
  | mul => exact arithmetic_accounted m i .mul op
  | div => exact arithmetic_accounted m i .div op
  | jmp => exact accounted_go (.jump (.inl op))
  | jiz =>
    simp only
    split
    · exact accounted_work (.pass (by simp [op]))
    · rename_i clear
      exact accounted_go (.jump (.inr ⟨op, by simpa using clear⟩))
  | define =>
    simp only
    cases closed : m.afterReturn? with
    | none => exact accounted_fault m i _ m.queue
    | some target => exact accounted_go (.skip op closed)
  | call => exact call_accounted m i op
  | ret => exact ret_accounted m i op
  | del => exact delay_accounted m i op
  | errh => exact accounted_work (.pass (by simp [op]))
  | out =>
    simp only [out]
    split
    · exact accounted_print _ (by simp [op, Opcode.writers])
    · cases under : m.wheel.current with
      | error cause => exact accounted_fault m i cause m.queue
      | ok v => exact accounted_print _ (by simp [op, Opcode.writers])
  | inp =>
    simp only
    split
    · exact accounted_fault m i _ m.queue
    · rename_i filled
      have values : m.wheel.isEmpty = false := by simpa using filled
      -- A host that gives no line leaves the machine at the question.
      refine .inr ⟨by simp, ?_, ?_⟩
      · rintro prompt j m' asked
        obtain ⟨_, rfl, rfl⟩ := Effect.ask.inj asked
        exact ⟨rfl, rfl, values⟩
      intro left leaves
      cases leaves with
      | answered _ stored =>
        rcases answer_cases stored with rfl | ⟨cause, handler, missing, next, handles, rfl⟩
        · exact .work (.answer op values)
        · exact .miss op values missing next handles
      | unanswered => exact .stay (by simp [op])
  | argview => exact accounted_print _ (by simp [op, Opcode.writers])
  | dbgprintv => exact accounted_print _ (by simp [op, Opcode.writers])
  | dbgprintc => exact accounted_print _ (by simp [op, Opcode.writers])

theorem turn_of_dispatches {m : Machine} {i : Instruction} (dispatches : m.Dispatches i) :
    m.turn = m.dispatch i := by
  obtain ⟨current, within⟩ := dispatches
  simp only [turn, current]
  cases bound : m.limit with
  | none => rfl
  | some limit =>
    have room := within limit bound
    simp only [Nat.not_le.mpr room, ↓reduceIte]

theorem turn_idle {m : Machine} (idle : ∀ i, ¬ m.Dispatches i) :
    m.turn = .exit .endOfStream m ∨ ∃ limit, m.turn = .spent limit m := by
  unfold turn
  cases current : m.program.get? m.cursor with
  | none => exact .inl rfl
  | some i =>
    cases bound : m.limit with
    | none => exact absurd (dispatches_unlimited current bound) (idle i)
    | some limit =>
      by_cases used : limit ≤ m.steps
      · exact .inr ⟨limit, by simp only [used, ↓reduceIte]⟩
      · have free : m.Dispatches i := ⟨current, by simp [bound]; omega⟩
        exact absurd free (idle i)

theorem dispatch_raised {m : Machine} {i : Instruction} {cause : Fault} {q : ArgQueue}
    (raised : m.counted.Raises i cause q) :
    m.dispatch i =
      match (m.counted.requeue q).recover ⟨cause, m.cursor, i⟩ with
      | .ok m => .go m
      | .error crash => .fault crash (m.counted.requeue q) := by
  have failed : perform { m with steps := m.steps + 1 } i =
      .fault ⟨cause, m.cursor, i⟩ (m.counted.requeue q) := raised
  cases handled : (m.counted.requeue q).recover ⟨cause, m.cursor, i⟩ with
  | ok m' => simp only [dispatch, failed, handled]
  | error crash => simp only [dispatch, failed, handled]

theorem dispatch_sound {m : Machine} {i : Instruction}
    (sound : ∀ crash m', m.counted.perform i ≠ .fault crash m') :
    m.dispatch i = m.counted.perform i := by
  unfold dispatch
  split
  · rename_i crash m' failed
    exact absurd failed (sound crash m')
  · rfl

theorem dispatch_move {m m' : Machine} {i : Instruction} (left : (m.dispatch i).Leaves m') :
    Move m.counted i m' := by
  rcases perform_accounted m.counted i with ⟨cause, q, raised⟩ | ⟨sound, _, moves⟩
  · rw [dispatch_raised raised] at left
    rcases recover_cases (m.counted.requeue q) ⟨cause, m.cursor, i⟩ with
      fatal | ⟨handler, next, op, handled⟩
    · rw [fatal] at left
      cases left
      exact .crash raised
    · rw [handled] at left
      cases left
      exact .recover raised next op
  · rw [dispatch_sound sound] at left
    exact moves m' left

theorem turn_move {m m' : Machine} (left : m.turn.Leaves m') :
    m' = m ∨ ∃ i, m.Dispatches i ∧ Move m.counted i m' := by
  by_cases busy : ∃ i, m.Dispatches i
  · obtain ⟨i, dispatches⟩ := busy
    rw [turn_of_dispatches dispatches] at left
    exact .inr ⟨i, dispatches, dispatch_move left⟩
  · rcases turn_idle (not_exists.mp busy) with ended | ⟨limit, spent⟩
    · rw [ended] at left
      cases left
      exact .inl rfl
    · rw [spent] at left
      cases left
      exact .inl rfl

theorem turn_ask {m m' : Machine} {i : Instruction} {prompt : Option String}
    (asked : m.turn = .ask prompt i m') :
    m.Dispatches i ∧ m' = m.counted ∧ m.wheel.isEmpty = false := by
  by_cases busy : ∃ j, m.Dispatches j
  · obtain ⟨j, dispatches⟩ := busy
    rw [turn_of_dispatches dispatches] at asked
    rcases perform_accounted m.counted j with ⟨cause, q, raised⟩ | ⟨sound, asks, _⟩
    · rw [dispatch_raised raised] at asked
      split at asked <;> cases asked
    · rw [dispatch_sound sound] at asked
      obtain ⟨rfl, rfl, values⟩ := asks prompt i m' asked
      exact ⟨dispatches, rfl, values⟩
  · rcases turn_idle (not_exists.mp busy) with ended | ⟨limit, spent⟩
    · cases ended.symm.trans asked
    · cases spent.symm.trans asked

theorem Works.not_call {m : Machine} {i : Instruction} {w : Wheel} {q : ArgQueue}
    (done : Works m i w q) : i.opcode ≠ .call := by
  cases done with
  | pass op => rcases op with op | op <;> intro call <;> simp [call, Opcode.writers] at op
  | @compute a _ _ _ op => cases a <;> simp [op, Arithmetic.opcode]
  | append op | rotate op | reverse op | stage op | compare op | wait op | answer op => simp [op]

theorem Move.of_call {m m' : Machine} {i : Instruction} (moved : Move m i m')
    (op : i.opcode = .call) :
    (∃ f arguments q, m.functions.find i.text = .ok f ∧
      m.queue.drain (argumentCount i f).toInt.toNat = .ok (arguments, q) ∧
      m' = m.enter f.entry arguments q) ∨ ∃ cause q, m.Raises i cause q := by
  cases moved with
  | enter _ found _ drained => exact .inl ⟨_, _, _, found, drained, rfl⟩
  | crash raised => exact .inr ⟨_, _, raised⟩
  | recover raised => exact .inr ⟨_, _, raised⟩
  | work done => exact absurd op done.not_call
  | stay other => simp [op, Opcode.writers] at other
  | steer other | jump other | skip other | leave other | miss other => simp [op] at other

end Machine

namespace Session

variable {σ : Type} [Host σ]

theorem step_move {s : Session σ} {i : Instruction} (dispatches : s.machine.Dispatches i) :
    Machine.Move s.machine.counted i s.step.1.machine := by
  have left := step_leaves s
  rw [Machine.turn_of_dispatches dispatches] at left
  exact Machine.dispatch_move left

theorem step_cases (s : Session σ) :
    s.step.1.machine = s.machine ∨
      ∃ i, s.machine.Dispatches i ∧ Machine.Move s.machine.counted i s.step.1.machine :=
  Machine.turn_move (step_leaves s)

theorem step_idle {s : Session σ} (idle : ∀ i, ¬ s.machine.Dispatches i) :
    s.step.1.machine = s.machine := by
  rcases step_cases s with same | ⟨i, dispatches, _⟩
  · exact same
  · exact absurd dispatches (idle i)

theorem step_raised {s : Session σ} {i : Instruction} {cause : Fault} {q : ArgQueue}
    (dispatches : s.machine.Dispatches i) (raised : s.machine.counted.Raises i cause q) :
    ∃ target, s.step.1 = ⟨(s.machine.counted.requeue q).goto target, s.host⟩ := by
  obtain ⟨m, h⟩ := s
  have turned := Machine.turn_of_dispatches dispatches
  rw [Machine.dispatch_raised raised] at turned
  rcases Machine.recover_cases (m.counted.requeue q) ⟨cause, m.cursor, i⟩ with
    fatal | ⟨handler, _, _, handled⟩
  · exact ⟨m.cursor, by simp only [step_mk, turned, fatal]; rfl⟩
  · exact ⟨(m.counted.requeue q).landing handler cause.kind,
      by simp only [step_mk, turned, handled]⟩

/-- The instruction fails with this fault, at once or when the line that it asked for is there and
has no place to go to. -/
inductive Faults (s : Session σ) (i : Instruction) : Crash → Prop
  | raised {crash : Crash} {failed : Machine}
      (raised : s.machine.counted.perform i = .fault crash failed) : Faults s i crash
  | unplaced {prompt : Option String} {m : Machine} {line : String} {cause : Fault}
      (asked : s.machine.counted.perform i = .ask prompt i m)
      (told : (Host.askLine prompt s.host).1 = .ok line)
      (unplaced : m.wheel.setCurrent (.ofInput line) = .error cause) :
      Faults s i ⟨cause, m.cursor, i⟩

/-- What becomes of a failing instruction is up to the recovery from its fault. -/
theorem Faults.settled {s : Session σ} {i : Instruction} {crash : Crash} (fails : s.Faults i crash)
    (dispatches : s.machine.Dispatches i) :
    crash = ⟨crash.cause, s.machine.cursor, i⟩ ∧ ∃ q h,
      let failed := s.machine.counted.requeue q
      let settled := failed.settle (failed.recover crash)
      s.step = (⟨settled.1, h⟩, settled.2) := by
  obtain ⟨m, h⟩ := s
  have turned := Machine.turn_of_dispatches dispatches
  rcases Machine.perform_accounted m.counted i with ⟨cause, q, located⟩ | ⟨sound, asks, _⟩
  · rw [Machine.dispatch_raised located] at turned
    obtain rfl : crash = ⟨cause, m.cursor, i⟩ := by
      cases fails with
      | raised raised => exact (Effect.fault.inj (raised.symm.trans located)).1
      | unplaced asked => cases asked.symm.trans located
    refine ⟨rfl, q, h, ?_⟩
    cases handled : (m.counted.requeue q).recover ⟨cause, m.cursor, i⟩ with
    | ok left => simp only [step_mk, turned, handled, Machine.settle]
    | error fatal => simp only [step_mk, turned, handled, Machine.settle]
  · cases fails with
    | raised raised => exact absurd raised (sound _ _)
    | @unplaced prompt left line cause asked told unplaced =>
      rw [Machine.dispatch_sound sound, asked] at turned
      obtain ⟨_, rfl, _⟩ := asks _ _ _ asked
      refine ⟨rfl, m.queue, (Host.askLine prompt h).2, ?_⟩
      have answered : m.counted.answer i line =
          m.counted.recover ⟨cause, m.counted.cursor, i⟩ := by
        simp only [Machine.answer, unplaced]
      rw [step_mk, turned]
      rcases asking : Host.askLine prompt h with ⟨e | said, h'⟩
      · simp [asking] at told
      · obtain rfl : said = line := by simpa [asking] using told
        simp only [asking, answered]
        rfl

def after (s : Session σ) : Nat → Session σ
  | 0 => s
  | n + 1 => (s.after n).step.1

def start (program : Program) (limit : Option Nat) (host : σ) : Session σ :=
  ⟨.start program limit, host⟩

def Reachable (s : Session σ) : Prop :=
  ∃ program limit host n, s = (start program limit host).after n

theorem after_add (s : Session σ) (n k : Nat) : s.after (n + k) = (s.after n).after k := by
  induction k with
  | zero => rfl
  | succ k ih =>
    change (s.after (n + k)).step.1 = ((s.after n).after k).step.1
    rw [ih]

theorem reachable_after {s : Session σ} (reachable : s.Reachable) (k : Nat) :
    (s.after k).Reachable := by
  obtain ⟨program, limit, host, n, rfl⟩ := reachable
  exact ⟨program, limit, host, n + k, (after_add _ n k).symm⟩

theorem after_keeps {keep : Machine → Prop}
    (moves : ∀ {m m' i}, m.Dispatches i → Machine.Move m.counted i m' → keep m → keep m')
    {s : Session σ} (begun : keep s.machine) (n : Nat) : keep (s.after n).machine := by
  -- Steps that dispatch nothing need no hypothesis: they leave the machine as it is.
  induction n with
  | zero => exact begun
  | succ n ih =>
    change keep (s.after n).step.1.machine
    rcases step_cases (s.after n) with same | ⟨i, dispatches, moved⟩
    · rw [same]
      exact ih
    · exact moves dispatches moved ih

end Session
end Wheelwork
