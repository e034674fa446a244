import Wheelwork.Json.Printer
import Wheelwork.Opcode
import Wheelwork.Sha256
import Wheelwork.Value

/-!
Programs, their listing as source text, their JSON form and their fingerprint.
-/
namespace Wheelwork

structure Instruction where
  opcode : Opcode
  int : Int64 := 0
  text : String := ""
  float : Float := 0
  /-- Whether arguments come from the queue. -/
  args : Bool := false
  /-- The source line, zero if there is none. -/
  line : UInt32 := 0

structure Program where
  instructions : Array Instruction

namespace Instruction

def hasText (i : Instruction) : Bool := i.text ≠ ""

def floatText (x : Float) : String :=
  let digits := Numeral.format Numeral.display x
  if digits.toList.contains '.' then digits else digits ++ ".0"

/-- The instruction as a source line; arguments that hold their default are left out. -/
def display (i : Instruction) : String :=
  i.opcode.mnemonic
    ++ (if i.hasText then " \"" ++ i.text ++ "\"" else "")
    ++ (if i.int ≠ 0 then " " ++ toString i.int.toInt else "")
    ++ (if Numeral.magnitude i.float ≠ 0 then " " ++ floatText i.float else "")
    ++ (if i.args then " %" else "")

def json (i : Instruction) : Json :=
  .object [("opcode", .string i.opcode.mnemonic), ("int_arg", Json.int i.int.toInt),
    ("text_arg", .string i.text), ("float_arg", Json.float i.float), ("args_flag", .bool i.args),
    ("line", Json.int i.line.toNat)]

end Instruction

namespace Program

def size (p : Program) : Nat := p.instructions.size

def get? (p : Program) (i : Nat) : Option Instruction := p.instructions[i]?

def listing (p : Program) : String :=
  String.join (p.instructions.toList.map fun i => i.display ++ "\n")

def json (p : Program) : Json :=
  .object [("instructions", .array (p.instructions.toList.map Instruction.json))]

def fingerprint (p : Program) : String := Sha256.hex p.json.compress.toUTF8.toList

end Program
end Wheelwork
