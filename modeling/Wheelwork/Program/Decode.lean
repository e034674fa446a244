import Wheelwork.Json.Reader
import Wheelwork.Program.Basic
import Wheelwork.Text.Integer

/-!
Programs read from JSON text.

A record is an object, in which fields may be missing if they have a default and unknown ones
are passed over, or an array of its first fields in order. Numbers with a fraction or an exponent
are read in a single rounding of the significand and one of the scaling.
-/
namespace Wheelwork

namespace Numeral

/-- Takes digits into a 64-bit significand up to the first one that does not fit. -/
def gather : Nat → List Char → Nat × List Char
  | significand, [] => (significand, [])
  | significand, c :: cs =>
    let next := significand * 10 + (c.toNat - '0'.toNat)
    if next < UInt64.size then gather next cs else (significand, c :: cs)

def leadingDigits (n : Numeral) : Nat × Int :=
  let (whole, dropped) := gather 0 (Nat.toDigits 10 n.whole)
  let (all, unread) := gather whole n.fraction
  (all, dropped.length - (n.fraction.length - unread.length) + n.exponent.getD 0)

def powerOfTen (k : Nat) : Float := Decimal.toFloat false ⟨1, k⟩

def scaleDown : (fuel : Nat) → Float → Nat → Float
  | 0, x, _ => x
  | fuel + 1, x, k =>
    if k ≤ 308 then x / powerOfTen k
    else if magnitude x = 0 then x
    else scaleDown fuel (x / powerOfTen 308) (k - 308)

def scaled? (significand : Nat) (e : Int) : Option Float :=
  let x := Decimal.ofInt significand
  if e < 0 then some (scaleDown (e.natAbs / 308 + 1) x e.natAbs)
  else if 308 < e then (if significand = 0 then some x else none)
  else
    let y := x * powerOfTen e.toNat
    if magnitude y < Decimal.infinityBits then some y else none

def isWord (n : Numeral) : Bool := n.fraction.isEmpty && n.exponent.isNone && n.whole < UInt64.size

def value? (n : Numeral) : Option Float :=
  if n.isWord then some (Decimal.toFloat n.negative ⟨n.whole, 0⟩)
  else
    let (significand, e) := n.leadingDigits
    (scaled? significand e).map fun x => if n.negative then -x else x

end Numeral

namespace Json

/-- A whole number in the 64-bit signed range; a negative zero is not one. -/
def int64? : Json → Option Int64
  | .number n =>
    if !n.isWord then none
    else if n.negative then (if n.whole = 0 then none else Text.toInt64? (-(n.whole : Int)))
    else Text.toInt64? n.whole
  | _ => none

def uint32? : Json → Option UInt32
  | .number n =>
    if n.isWord && !n.negative && n.whole < UInt32.size then some (UInt32.ofNat n.whole) else none
  | _ => none

def float? : Json → Option Float
  | .number n => n.value?
  | _ => none

def string? : Json → Option String
  | .string s => some s
  | _ => none

def bool? : Json → Option Bool
  | .bool b => some b
  | _ => none

def array? : Json → Option (List Json)
  | .array items => some items
  | _ => none

def record? (keys : List String) : Json → Option (List (String × Json))
  | .object fields => some fields
  | .array items => if items.length ≤ keys.length then some (keys.zip items) else none
  | _ => none

def field? {α : Type} (key : String) (decode : Json → Option α) (absent : Option α)
    (fields : List (String × Json)) : Option α :=
  match fields.filter fun f => f.1 == key with
  | [] => absent
  | [(_, value)] => decode value
  | _ => none

end Json

/-- An opcode is its mnemonic, or an object with the mnemonic as its only key and no content. -/
def Opcode.ofJson? : Json → Option Opcode
  | .string s => ofMnemonic? s
  | .object [(key, .null)] => ofMnemonic? key
  | _ => none

def Instruction.keys : List String :=
  ["opcode", "int_arg", "text_arg", "float_arg", "args_flag", "line"]

def Instruction.ofJson? (j : Json) : Option Instruction := do
  let fields ← j.record? keys
  let opcode ← Json.field? "opcode" Opcode.ofJson? none fields
  let int ← Json.field? "int_arg" Json.int64? (some 0) fields
  let text ← Json.field? "text_arg" Json.string? (some "") fields
  let float ← Json.field? "float_arg" Json.float? (some 0) fields
  let args ← Json.field? "args_flag" Json.bool? (some false) fields
  let line ← Json.field? "line" Json.uint32? (some 0) fields
  some { opcode, int, text, float, args, line }

namespace Program

def ofJson? (j : Json) : Option Program := do
  let fields ← j.record? ["instructions"]
  let items ← Json.field? "instructions" Json.array? none fields
  let instructions ← items.mapM Instruction.ofJson?
  some ⟨instructions.toArray⟩

def ofJsonText? (text : String) : Option Program := (Json.read? text).bind ofJson?

end Program
end Wheelwork
