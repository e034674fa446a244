/-!
The instruction set.
-/
namespace Wheelwork

inductive Opcode where
  | define | call | ret
  | newv | whldirv | whldirc | addarg | cmp | movvw
  | out | inp
  | jiz | jmp
  | add | sub | mul | div
  | del | argview | errh | dbgprintv | dbgprintc
  deriving DecidableEq, Repr

namespace Opcode

def all : List Opcode :=
  [.define, .call, .ret, .newv, .whldirv, .whldirc, .addarg, .cmp, .movvw, .out, .inp, .jiz,
   .jmp, .add, .sub, .mul, .div, .del, .argview, .errh, .dbgprintv, .dbgprintc]

def mnemonic : Opcode → String
  | .define => "DEF"
  | .call => "CALL"
  | .ret => "RET"
  | .newv => "NEWV"
  | .whldirv => "WHLDIRV"
  | .whldirc => "WHLDIRC"
  | .addarg => "ADDARG"
  | .cmp => "CMP"
  | .movvw => "MOVVW"
  | .out => "OUT"
  | .inp => "INP"
  | .jiz => "JIZ"
  | .jmp => "JMP"
  | .add => "ADD"
  | .sub => "SUB"
  | .mul => "MUL"
  | .div => "DIV"
  | .del => "DEL"
  | .argview => "ARGVIEW"
  | .errh => "ERRH"
  | .dbgprintv => "DBGPRINTV"
  | .dbgprintc => "DBGPRINTC"

def ofMnemonic? (word : String) : Option Opcode := all.find? fun op => op.mnemonic == word

end Opcode

def unknownMnemonicMessage (word : String) : String := "unknown mnemonic '" ++ word ++ "'"

end Wheelwork
