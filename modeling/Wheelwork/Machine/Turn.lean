import Wheelwork.Arithmetic
import Wheelwork.Machine.Basic

/-!
What each instruction does, and the handling of its faults by the instruction after it.
-/
namespace Wheelwork.Machine

def fail (m : Machine) (i : Instruction) (cause : Fault) : Effect := .fault ⟨cause, m.cursor, i⟩ m

def withWheel (m : Machine) (i : Instruction) : Except Fault Wheel → Effect
  | .ok w => .go (m.mapWheel fun _ => w).advance
  | .error f => m.fail i f

def store (m : Machine) (i : Instruction) : Except Fault Value → Effect
  | .error f => m.fail i f
  | .ok v =>
    match m.wheel.current with
    | .error f => m.fail i f
    | .ok _ => .go (m.mapWheel (·.put v)).advance

def arithmetic (m : Machine) (i : Instruction) (op : Arithmetic) : Effect :=
  let (result, queue) := op.compute i m.wheel m.queue
  store { m with queue } i result

/-- The comparison of the value under the cursor, and the queue that it leaves. Queued values are
compared by order with integers and by equality with text. -/
def comparison (i : Instruction) (w : Wheel) (q : ArgQueue) : Except Fault Bool × ArgQueue :=
  if w.isEmpty then (.error .emptyWheel, q)
  else if i.args then
    match q.pop with
    | .error f => (.error f, q)
    | .ok (operand, rest) =>
      match w.current, operand with
      | .error f, _ => (.error f, rest)
      | .ok (.integer n), .integer k => (.ok (k < n), rest)
      | .ok (.integer _), other => (.error (.notNumeric other), rest)
      | .ok (.text s), other => (.ok (other.text? == some s), rest)
      | .ok (.float x), _ => (.error (.notNumeric (.float x)), rest)
  else if i.hasText then (w.current.map fun v => v.display == i.text, q)
  else (w.currentInteger.map fun n => i.int < n, q)

def cmp (m : Machine) (i : Instruction) : Effect :=
  match comparison i m.wheel m.queue with
  | (.ok flag, queue) => .go (mapWheel (·.setFlag flag) { m with queue }).advance
  | (.error f, queue) => fail { m with queue } i f

def afterReturn? (m : Machine) : Option Nat :=
  let rest := m.program.instructions.toList.drop (m.cursor + 1)
  (rest.findIdx? fun i => i.opcode = .ret).map (m.cursor + 1 + · + 1)

def argumentCount (i : Instruction) (f : FunctionEntry) : Int64 :=
  if i.int ≠ 0 then i.int else if i.args then f.arity else 0

def enter (m : Machine) (entry : Nat) (arguments : List Value) (queue : ArgQueue) : Machine :=
  { m with
    frames := m.frames.push (.ofValues arguments)
    calls := (m.cursor + 1) :: m.calls
    queue := queue
    cursor := entry }

def call (m : Machine) (i : Instruction) : Effect :=
  match m.functions.find i.text with
  | .error f => m.fail i f
  | .ok function =>
    let count := argumentCount i function
    if count < 0 then m.fail i (.negativeCount count)
    else
      match m.queue.drain count.toInt.toNat with
      | .error f => m.fail i f
      | .ok (arguments, queue) => .go (m.enter function.entry arguments queue)

def ret (m : Machine) : Effect :=
  match m.calls with
  | [] => .exit .returned m
  | target :: calls =>
    let frames := match m.frames.pop? with
      | some (_, frames) => frames
      | none => m.frames
    .go { m with frames, calls, cursor := target }

def delay (m : Machine) (i : Instruction) : Effect :=
  -- a negative time is no wait at all
  if i.args then
    match m.queue.pop with
    | .error f => m.fail i f
    | .ok (.integer n, queue) => .pause n.toInt.toNat { m with queue }
    | .ok (v, queue) => fail { m with queue } i (.badOperand v)
  else .pause i.int.toInt.toNat m

def out (m : Machine) (i : Instruction) : Effect :=
  if i.hasText then .print [i.text] m
  else
    match m.wheel.current with
    | .ok v => .print [v.display] m
    | .error f => m.fail i f

def perform (m : Machine) (i : Instruction) : Effect :=
  match i.opcode with
  | .newv =>
    .go (m.mapWheel (·.push (if i.hasText then .text i.text else .integer i.int))).advance
  | .movvw => m.withWheel i (m.wheel.rotate i.int)
  | .whldirv =>
    match Direction.ofArg? i.int with
    | some d => .go (m.mapWheel (·.setDirection d)).advance
    | none => m.fail i (.badDirection i.int)
  | .whldirc =>
    match Direction.ofArg? i.int with
    | some direction => .go { m with direction }.advance
    | none => m.fail i (.badDirection i.int)
  | .addarg =>
    match m.wheel.current with
    | .ok v => .go { m with queue := m.queue.push v }.advance
    | .error f => m.fail i f
  | .cmp => m.cmp i
  | .add => m.arithmetic i .add
  | .sub => m.arithmetic i .sub
  | .mul => m.arithmetic i .mul
  | .div => m.arithmetic i .div
  | .jmp => .go (m.goto (m.relative i.int))
  | .jiz => .go (if m.wheel.flag then m.advance else m.goto (m.relative i.int))
  | .define =>
    match m.afterReturn? with
    | some target => .go (m.goto target)
    | none => m.fail i .openDefinition
  | .call => m.call i
  | .ret => m.ret
  | .del => m.delay i
  | .errh => .go m.advance
  | .out => m.out i
  | .inp =>
    if m.wheel.isEmpty then m.fail i .emptyWheel
    else .ask (if i.hasText then some i.text else none) i m
  | .argview => .print [String.intercalate " " (m.queue.toList.map Value.display)] m
  | .dbgprintv => .print m.wheel.render m
  | .dbgprintc => .print m.renderProgram m

def handles (handler : Instruction) (kind : FaultKind) : Bool :=
  !handler.hasText || FaultKind.ofName? handler.text == some kind

/-- A handler after the failing instruction takes the fault and jumps, or is passed over. -/
def recover (m : Machine) (crash : Crash) : Except Crash Machine :=
  match m.program.get? (m.cursor + 1) with
  | none => .error crash
  | some handler =>
    if handler.opcode ≠ .errh then .error crash
    else if handles handler crash.cause.kind then .ok (m.goto (m.relative handler.int))
    else .ok (m.goto (m.cursor + 2))

def dispatch (m : Machine) (i : Instruction) : Effect :=
  match perform { m with steps := m.steps + 1 } i with
  | .fault crash m =>
    match m.recover crash with
    | .ok m => .go m
    | .error crash => .fault crash m
  | effect => effect

def turn (m : Machine) : Effect :=
  match m.program.get? m.cursor with
  | none => .exit .endOfStream m
  | some i =>
    match m.limit with
    | some limit => if limit ≤ m.steps then .spent limit m else m.dispatch i
    | none => m.dispatch i

def answer (m : Machine) (i : Instruction) (line : String) : Except Crash Machine :=
  match m.wheel.setCurrent (.ofInput line) with
  | .ok w => .ok (m.mapWheel fun _ => w).advance
  | .error f => m.recover ⟨f, m.cursor, i⟩

end Wheelwork.Machine
