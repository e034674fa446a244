import Wheelwork.Decimal.Shortest

/-!
Numerals, the written form of numbers, and the numeral of a binary64 value in a given style.
-/
namespace Wheelwork

structure Numeral where
  negative : Bool
  whole : Nat
  fraction : List Char
  exponent : Option Int
  deriving DecidableEq, Repr

namespace Numeral

def ofInt (n : Int) : Numeral := ⟨n < 0, n.natAbs, [], none⟩

def text (plus : List Char) (n : Numeral) : List Char :=
  (if n.negative then ['-'] else []) ++ Nat.toDigits 10 n.whole
    ++ (if n.fraction.isEmpty then [] else '.' :: n.fraction)
    ++ (match n.exponent with
      | none => []
      | some e => 'e' :: (if e < 0 then ['-'] else plus) ++ Nat.toDigits 10 e.natAbs)

def decimal (n : Numeral) : Decimal :=
  ⟨Nat.ofDigitChars 10 n.fraction n.whole, n.exponent.getD 0 - n.fraction.length⟩

def toFloat (n : Numeral) : Float := n.decimal.toFloat n.negative

structure Style where
  /-- Whether a number whose first digit stands at this power of ten is written out in full. -/
  positional : Int → Bool
  /-- Whether whole numbers written in full carry `.0`. -/
  pointZero : Bool
  tie : Decimal.Tie

def padded (places n : Nat) : List Char :=
  let digits := Nat.toDigits 10 n
  List.replicate (places - digits.length) '0' ++ digits

def ofDecimal (style : Style) (negative : Bool) (x : Decimal) : Numeral :=
  let digits := Nat.toDigits 10 x.coefficient
  let leading := x.exponent + digits.length - 1
  if style.positional leading then
    if 0 ≤ x.exponent then
      ⟨negative, x.coefficient * Nat.pow 10 x.exponent.toNat,
        if style.pointZero then ['0'] else [], none⟩
    else
      let places := (-x.exponent).toNat
      let unit := Nat.pow 10 places
      ⟨negative, x.coefficient / unit, padded places (x.coefficient % unit), none⟩
  else
    ⟨negative, x.coefficient / Nat.pow 10 (digits.length - 1), digits.drop 1, some leading⟩

def magnitude (x : Float) : Nat := x.toBits.toNat % Decimal.signBit

def isNegative (x : Float) : Bool := Decimal.signBit ≤ x.toBits.toNat

def ofFloat? (style : Style) (x : Float) : Option Numeral :=
  let m := magnitude x
  if m < Decimal.infinityBits then
    some (ofDecimal style (isNegative x) (if m = 0 then ⟨0, 0⟩ else Decimal.shortest style.tie m))
  else none

def format (style : Style) (x : Float) : String :=
  match ofFloat? style x with
  | some n => String.ofList (n.text [])
  | none =>
    if magnitude x = Decimal.infinityBits then (if isNegative x then "-inf" else "inf")
    else "NaN"

/-- Numbers in output lines: always in full, whole numbers without a point. -/
def display : Style := ⟨fun _ => true, false, .up⟩

/-- Numbers quoted from source text: a point when in full, an exponent below `1e-4` and from
`1e16` on. -/
def quoted : Style := ⟨fun e => -4 ≤ e && e ≤ 15, true, .up⟩

end Numeral
end Wheelwork
