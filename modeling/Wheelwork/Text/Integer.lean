/-!
Whole numbers as text: an optional sign and decimal digits, within a fixed width.
-/
namespace Wheelwork.Text

def readNat? (cs : List Char) : Option Nat :=
  if cs.isEmpty then none
  else if cs.all Char.isDigit then some (Nat.ofDigitChars 10 cs 0)
  else none

def readInt? : List Char → Option Int
  | '+' :: cs => (readNat? cs).map Int.ofNat
  | '-' :: cs => (readNat? cs).map fun n => -(n : Int)
  | cs => (readNat? cs).map Int.ofNat

def toInt64? (n : Int) : Option Int64 :=
  if Int64.minValue.toInt ≤ n ∧ n ≤ Int64.maxValue.toInt then some (Int64.ofInt n) else none

def readInt64? (cs : List Char) : Option Int64 := (readInt? cs).bind toInt64?

/-- An unsigned 64-bit count; a plus sign is allowed, a minus sign is not. -/
def readCount? (cs : List Char) : Option Nat :=
  let digits := match cs with
    | '+' :: rest => rest
    | cs => cs
  (readNat? digits).bind fun n => if n < UInt64.size then some n else none

end Wheelwork.Text
