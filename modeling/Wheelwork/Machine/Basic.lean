import Wheelwork.ArgQueue
import Wheelwork.Frames
import Wheelwork.FunctionTable

/-!
The machine that runs a program, and what a turn of it asks for.
-/
namespace Wheelwork

structure Machine where
  program : Program
  functions : FunctionTable
  /-- The number of instructions that may be dispatched. -/
  limit : Option Nat
  /-- The index of the next instruction. -/
  cursor : Nat
  /-- The direction of relative jumps. -/
  direction : Direction
  frames : Frames
  /-- The return addresses of the pending calls, latest first. -/
  calls : List Nat
  queue : ArgQueue
  /-- The number of instructions dispatched so far. -/
  steps : Nat

namespace Machine

def start (program : Program) (limit : Option Nat) : Machine where
  program := program
  functions := .ofProgram program
  limit := limit
  cursor := 0
  direction := .forward
  frames := {}
  calls := []
  queue := {}
  steps := 0

def wheel (m : Machine) : Wheel := m.frames.active

@[inline] def mapWheel (f : Wheel → Wheel) : Machine → Machine
  | ⟨program, functions, limit, cursor, direction, ⟨active, below⟩, calls, queue, steps⟩ =>
    ⟨program, functions, limit, cursor, direction, ⟨f active, below⟩, calls, queue, steps⟩

def goto (m : Machine) (target : Nat) : Machine := { m with cursor := target }

def advance (m : Machine) : Machine := m.goto (m.cursor + 1)

def relative (m : Machine) (steps : Int64) : Nat :=
  Ring.index m.cursor m.direction steps m.program.size

def atEnd (m : Machine) : Bool := m.program.size ≤ m.cursor

def renderProgram (m : Machine) : List String :=
  let label := fun i : Instruction =>
    let text := i.opcode.mnemonic ++ " " ++ toString i.int.toInt ++ " " ++ i.text
    String.ofList (Text.trimEnd text.toList)
  let labels := m.program.instructions.toList.map label
  if labels.isEmpty then ["no instructions"]
  else if labels.length ≤ Ring.maxDrawn then Ring.draw labels m.cursor
  else labels.zipIdx.map fun (label, i) => Ring.marked m.cursor i label

end Machine

inductive Exit where
  /-- The cursor moved past the last instruction. -/
  | endOfStream
  /-- A return with no call pending. -/
  | returned
  deriving DecidableEq, Repr

def Exit.name : Exit → String
  | .endOfStream => "end_of_stream"
  | .returned => "returned"

structure Crash where
  cause : Fault
  cursor : Nat
  instruction : Instruction

namespace Crash

def display (c : Crash) : String :=
  c.cause.message ++ " @ cursor " ++ toString c.cursor ++ ", instruction "
    ++ c.instruction.opcode.mnemonic ++ ", argument " ++ toString c.instruction.int.toInt
    ++ (if c.instruction.line ≠ 0 then " (line " ++ toString c.instruction.line.toNat ++ ")" else "")

def json (c : Crash) : Json :=
  .object [("kind", .string c.cause.kind.name), ("message", .string c.cause.message),
    ("cursor", Json.int c.cursor), ("opcode", .string c.instruction.opcode.mnemonic),
    ("argument", Json.int c.instruction.int.toInt), ("line", Json.int c.instruction.line.toNat)]

end Crash

/-- What a turn of the machine comes to. What it asks of the host is done before the machine
moves on; if the host refuses, the machine stays as given. -/
inductive Effect where
  /-- Nothing is asked; the machine has moved on. -/
  | go (m : Machine)
  | print (lines : List String) (m : Machine)
  /-- A line to read for an instruction, after a prompt if there is one. -/
  | ask (prompt : Option String) (i : Instruction) (m : Machine)
  /-- A time to wait, in milliseconds. -/
  | pause (millis : Nat) (m : Machine)
  | exit (how : Exit) (m : Machine)
  | fault (crash : Crash) (m : Machine)
  | spent (limit : Nat) (m : Machine)

end Wheelwork
