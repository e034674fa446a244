import Wheelwork.Proofs.Steps

/-!
What an instruction can see. It does not look at the limit, nor at its own fraction and source line.
Of the program it sees the size, the first return after the cursor and the handler at the next
place, and one instruction shows it all. So a machine that is given another limit and another
program with the same of these does the same.
-/
namespace Wheelwork

structure Instruction.Alike (i j : Instruction) : Prop where
  opcode : i.opcode = j.opcode
  int : i.int = j.int
  text : i.text = j.text
  args : i.args = j.args

def Program.handler? (p : Program) (n : Nat) : Option (String × Int64) :=
  match p.get? n with
  | some i => if i.opcode = .errh then some (i.text, i.int) else none
  | none => none

theorem Program.map_eq {p q : Program} {α : Type} {f : Instruction → α} (size : p.size = q.size)
    (each : ∀ {n i j}, p.get? n = some i → q.get? n = some j → f i = f j) :
    p.instructions.map f = q.instructions.map f := by
  apply Array.ext_getElem?
  intro n
  rw [Array.getElem?_map, Array.getElem?_map]
  cases one : p.instructions[n]? with
  | none =>
    have beyond : q.size ≤ n := size ▸ Array.getElem?_eq_none_iff.mp one
    have other : q.instructions[n]? = none := Array.getElem?_eq_none_iff.mpr beyond
    rw [other]
  | some i =>
    have within : n < q.size := size ▸ (Array.getElem?_eq_some_iff.mp one).1
    have other : q.instructions[n]? = some _ := Array.getElem?_eq_getElem within
    rw [other, Option.map_some, Option.map_some, each one other]

/-- Another program, another limit and another form of the instructions for a machine. -/
structure Recast where
  program : Program → Program := id
  limit : Option Nat → Option Nat := id
  instruction : Instruction → Instruction := id

def Machine.recast (r : Recast) (m : Machine) : Machine :=
  { m with program := r.program m.program, limit := r.limit m.limit }

def Crash.recast (r : Recast) (c : Crash) : Crash :=
  { c with instruction := r.instruction c.instruction }

def Effect.recast (r : Recast) : Effect → Effect
  | .go m => .go (m.recast r)
  | .print lines m => .print lines (m.recast r)
  | .ask prompt i m => .ask prompt (r.instruction i) (m.recast r)
  | .pause millis m => .pause millis (m.recast r)
  | .exit how m => .exit how (m.recast r)
  | .fault crash m => .fault (crash.recast r) (m.recast r)
  | .spent limit m => .spent limit (m.recast r)

namespace Instruction

variable {i j : Instruction}

theorem Alike.hasText (alike : i.Alike j) : j.hasText = i.hasText := by
  simp only [Instruction.hasText, alike.text]

theorem Alike.compute (alike : i.Alike j) (a : Arithmetic) (w : Wheel) (q : ArgQueue) :
    a.compute j w q = a.compute i w q := by
  simp only [Arithmetic.compute, Arithmetic.claim, Arithmetic.direct, alike.opcode, alike.int,
    alike.args]

theorem Alike.comparison (alike : i.Alike j) (w : Wheel) (q : ArgQueue) :
    Machine.comparison j w q = Machine.comparison i w q := by
  simp only [Machine.comparison, alike.int, alike.text, alike.args, alike.hasText]

theorem Alike.argumentCount (alike : i.Alike j) (f : FunctionEntry) :
    Machine.argumentCount j f = Machine.argumentCount i f := by
  simp only [Machine.argumentCount, alike.int, alike.args]

end Instruction

namespace Machine

variable {r : Recast} {i : Instruction} (m : Machine)

theorem store_recast (i : Instruction) (result : Except Fault Value) :
    (m.recast r).store (r.instruction i) result = (m.store i result).recast r := by
  have wheel : (m.recast r).wheel = m.wheel := rfl
  cases result with
  | error cause => rfl
  | ok v =>
    simp only [store, wheel]
    cases m.wheel.current with
    | error cause => rfl
    | ok old => rfl

theorem arithmetic_recast (alike : i.Alike (r.instruction i)) (a : Arithmetic) :
    (m.recast r).arithmetic (r.instruction i) a = (m.arithmetic i a).recast r := by
  have wheel : (m.recast r).wheel = m.wheel := rfl
  have queue : (m.recast r).queue = m.queue := rfl
  simp only [arithmetic, alike.compute, wheel, queue]
  exact store_recast { m with queue := (a.compute i m.wheel m.queue).2 } i _

theorem cmp_recast (alike : i.Alike (r.instruction i)) :
    (m.recast r).cmp (r.instruction i) = (m.cmp i).recast r := by
  have wheel : (m.recast r).wheel = m.wheel := rfl
  have queue : (m.recast r).queue = m.queue := rfl
  simp only [cmp, alike.comparison, wheel, queue]
  rcases comparison i m.wheel m.queue with ⟨cause | flag, q⟩
  · rfl
  · rfl

theorem call_recast (alike : i.Alike (r.instruction i)) :
    (m.recast r).call (r.instruction i) = (m.call i).recast r := by
  have functions : (m.recast r).functions = m.functions := rfl
  have queue : (m.recast r).queue = m.queue := rfl
  simp only [call, functions, queue, ← alike.text, alike.argumentCount]
  cases m.functions.find i.text with
  | error cause => rfl
  | ok f =>
    simp only
    split
    · rfl
    · cases m.queue.drain (argumentCount i f).toInt.toNat with
      | error cause => rfl
      | ok taken => rfl

theorem ret_recast : (m.recast r).ret = m.ret.recast r := by
  have calls : (m.recast r).calls = m.calls := rfl
  simp only [ret, calls]
  cases m.calls with
  | nil => rfl
  | cons target calls => rfl

theorem delay_recast (alike : i.Alike (r.instruction i)) :
    (m.recast r).delay (r.instruction i) = (m.delay i).recast r := by
  have queue : (m.recast r).queue = m.queue := rfl
  simp only [delay, queue, ← alike.args, ← alike.int]
  split
  · rcases m.queue.pop with cause | ⟨v, q⟩
    · rfl
    · cases v with
      | integer n => rfl
      | text s => rfl
      | float x => rfl
  · rfl

theorem out_recast (alike : i.Alike (r.instruction i)) :
    (m.recast r).out (r.instruction i) = (m.out i).recast r := by
  have wheel : (m.recast r).wheel = m.wheel := rfl
  simp only [out, wheel, alike.hasText, ← alike.text]
  split
  · rfl
  · cases m.wheel.current with
    | error cause => rfl
    | ok v => rfl

/-- An instruction in another form does the same under another program, if what it sees of the
program is the same. -/
theorem perform_recast (alike : i.Alike (r.instruction i))
    (size : (r.program m.program).size = m.program.size)
    (closes : (m.recast r).afterReturn? = m.afterReturn?)
    (shown : i.opcode = .dbgprintc → (m.recast r).renderProgram = m.renderProgram) :
    (m.recast r).perform (r.instruction i) = (m.perform i).recast r := by
  have wheel : (m.recast r).wheel = m.wheel := rfl
  have relative : ∀ steps, (m.recast r).relative steps = m.relative steps := by
    intro steps
    simp only [Machine.relative, recast, size]
  unfold perform
  simp only [wheel, relative, closes, alike.hasText, ← alike.opcode, ← alike.int, ← alike.text]
  cases op : i.opcode with
  | newv | jmp | errh | argview | dbgprintv => rfl
  | movvw =>
    simp only [withWheel]
    cases m.wheel.rotate i.int with
    | error cause => rfl
    | ok w => rfl
  | whldirv | whldirc =>
    simp only
    cases Direction.ofArg? i.int with
    | none => rfl
    | some d => rfl
  | addarg =>
    simp only
    cases m.wheel.current with
    | error cause => rfl
    | ok v => rfl
  | cmp => exact cmp_recast m alike
  | add => exact arithmetic_recast m alike .add
  | sub => exact arithmetic_recast m alike .sub
  | mul => exact arithmetic_recast m alike .mul
  | div => exact arithmetic_recast m alike .div
  | jiz =>
    simp only
    split
    · rfl
    · rfl
  | define =>
    simp only
    cases m.afterReturn? with
    | none => rfl
    | some target => rfl
  | call => exact call_recast m alike
  | ret => exact ret_recast m
  | del => exact delay_recast m alike
  | out => exact out_recast m alike
  | inp =>
    simp only
    split
    · rfl
    · rfl
  | dbgprintc =>
    simp only [shown op]
    rfl

theorem recover_handler (crash : Crash) :
    m.recover crash = match m.program.handler? (m.cursor + 1) with
      | none => .error crash
      | some (text, int) =>
        .ok (m.goto (m.landing { opcode := .errh, text, int } crash.cause.kind)) := by
  unfold recover Program.handler?
  cases m.program.get? (m.cursor + 1) with
  | none => rfl
  | some handler =>
    by_cases op : handler.opcode = .errh
    · have same : ∀ kind,
          handles { opcode := .errh, text := handler.text, int := handler.int } kind =
            handles handler kind := fun _ => rfl
      simp only [op, ne_eq, not_true_eq_false, ↓reduceIte, landing, same]
      split
      · rfl
      · rfl
    · simp only [op, ne_eq, not_false_eq_true, ↓reduceIte]

theorem recover_recast (crash : Crash) (size : (r.program m.program).size = m.program.size)
    (next : (r.program m.program).handler? (m.cursor + 1) = m.program.handler? (m.cursor + 1)) :
    (m.recast r).recover (crash.recast r) =
      match m.recover crash with
      | .ok m => .ok (m.recast r)
      | .error crash => .error (crash.recast r) := by
  have lands : ∀ handler kind, (m.recast r).landing handler kind = m.landing handler kind := by
    intro handler kind
    simp only [landing, Machine.relative, recast, size]
  have same : (m.recast r).program.handler? ((m.recast r).cursor + 1) =
      m.program.handler? (m.cursor + 1) := next
  rw [recover_handler, recover_handler, same]
  cases m.program.handler? (m.cursor + 1) with
  | none => rfl
  | some handler =>
    simp only [lands]
    rfl

theorem dispatch_recast (alike : i.Alike (r.instruction i))
    (size : (r.program m.program).size = m.program.size)
    (closes : (m.recast r).afterReturn? = m.afterReturn?)
    (shown : i.opcode = .dbgprintc → (m.recast r).renderProgram = m.renderProgram)
    (next : (r.program m.program).handler? (m.cursor + 1) = m.program.handler? (m.cursor + 1)) :
    (m.recast r).dispatch (r.instruction i) = (m.dispatch i).recast r := by
  have performed : (m.recast r).counted.perform (r.instruction i) =
      (m.counted.perform i).recast r :=
    perform_recast m.counted alike size closes shown
  rcases perform_accounted m.counted i with ⟨cause, q, raised⟩ | ⟨sound, _⟩
  · have again : (m.recast r).counted.Raises (r.instruction i) cause q := by
      rw [raised] at performed
      exact performed
    have handled := recover_recast (m.counted.requeue q) ⟨cause, m.cursor, i⟩ size next
    rw [dispatch_raised raised, dispatch_raised again]
    change (match ((m.counted.requeue q).recast r).recover (Crash.recast r ⟨cause, m.cursor, i⟩) with
      | .ok m => Effect.go m
      | .error crash => .fault crash ((m.counted.requeue q).recast r)) = _
    rw [handled]
    cases (m.counted.requeue q).recover ⟨cause, m.cursor, i⟩ <;> rfl
  · rw [dispatch_sound sound, ← performed]
    apply dispatch_sound
    intro crash m' failed
    rw [performed] at failed
    cases given : m.counted.perform i with
    | fault early left => exact sound early left given
    | go | print | ask | pause | exit | spent => simp [given, Effect.recast] at failed

theorem answer_recast (line : String) (size : (r.program m.program).size = m.program.size)
    (next : (r.program m.program).handler? (m.cursor + 1) = m.program.handler? (m.cursor + 1)) :
    (m.recast r).answer (r.instruction i) line =
      match m.answer i line with
      | .ok m => .ok (m.recast r)
      | .error crash => .error (crash.recast r) := by
  have wheel : (m.recast r).wheel = m.wheel := rfl
  simp only [answer, wheel]
  cases m.wheel.setCurrent (.ofInput line) with
  | ok w => rfl
  | error cause => exact recover_recast m ⟨cause, m.cursor, i⟩ size next

theorem turn_program {m m' : Machine} (left : m.turn.Leaves m') : m'.program = m.program := by
  rcases turn_move left with rfl | ⟨i, _, moved⟩
  · rfl
  · cases moved <;> rfl

end Machine

def Progress.recast (r : Recast) : Progress → Progress
  | .failed (.fatal crash) => .failed (.fatal (crash.recast r))
  | p => p

theorem Machine.progress_recast {r : Recast} {m : Machine}
    (size : (r.program m.program).size = m.program.size) :
    (m.recast r).progress = m.progress.recast r := by
  have ended : (m.recast r).atEnd = m.atEnd := by simp only [atEnd, recast, size]
  simp only [progress, ended]
  cases m.atEnd with
  | true => rfl
  | false => rfl

namespace Session

variable {σ : Type} [Host σ] {r : Recast}

def recast (r : Recast) (s : Session σ) : Session σ := ⟨s.machine.recast r, s.host⟩

/-- A turn that comes to the same makes a step that does, if the handler at the next place is the
same. -/
theorem step_recast {s : Session σ}
    (size : (r.program s.machine.program).size = s.machine.program.size)
    (next : (r.program s.machine.program).handler? (s.machine.cursor + 1) =
      s.machine.program.handler? (s.machine.cursor + 1))
    (turned : (s.machine.recast r).turn = s.machine.turn.recast r) :
    (s.recast r).step = (s.step.1.recast r, s.step.2.recast r) := by
  obtain ⟨m, h⟩ := s
  have settled : ∀ m' : Machine, m.turn.Leaves m' →
      (m'.recast r).progress = m'.progress.recast r := by
    intro m' left
    apply Machine.progress_recast
    rw [Machine.turn_program left]
    exact size
  simp only at turned
  simp only [recast, step_mk, turned]
  cases given : m.turn with
  | go m =>
    rw [given] at settled
    exact congrArg _ (settled m (.gone m))
  | print lines m =>
    rw [given] at settled
    simp only [Effect.recast]
    split
    · exact congrArg _ (settled m.advance (.printed lines m))
    · rfl
  | ask prompt i m' =>
    obtain ⟨_, rfl, _⟩ := Machine.turn_ask given
    rw [given] at settled
    simp only [Effect.recast]
    split
    · rename_i line _ _
      rw [Machine.answer_recast m.counted line size next]
      cases stored : m.counted.answer i line with
      | ok m' => exact congrArg _ (settled m' (.answered prompt stored))
      | error crash => rfl
    · rfl
  | pause millis m =>
    rw [given] at settled
    exact congrArg _ (settled m.advance (.waited millis m))
  | exit how m => rfl
  | fault crash m => rfl
  | spent limit m => rfl

end Session
end Wheelwork
