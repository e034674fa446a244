import Wheelwork.Decimal.Nearest

/-!
The decimal with the fewest digits that reads back as a given binary64 value.
-/
namespace Wheelwork.Decimal

inductive Tie where
  | up
  | even
  deriving DecidableEq, Repr

def unpack (magnitude : Nat) : Nat × Int :=
  let field : Nat := magnitude / leadingBit
  let low : Nat := magnitude % leadingBit
  if field = 0 then (low, -1074) else (leadingBit + low, (field : Int) - 1075)

def exact (magnitude : Nat) : Decimal :=
  let (m, e) := unpack magnitude
  if 0 ≤ e then ⟨m * Nat.pow 2 e.toNat, 0⟩ else ⟨m * Nat.pow 5 (-e).toNat, e⟩

def stripZeros : (fuel : Nat) → Decimal → Decimal
  | 0, x => x
  | fuel + 1, ⟨c, e⟩ => if c ≠ 0 ∧ c % 10 = 0 then stripZeros fuel ⟨c / 10, e + 1⟩ else ⟨c, e⟩

/-- The decimal exponent of the first digit of `n / d`, for values of at least `10 ^ -324`. -/
def leadingExponent (n d : Nat) : Int :=
  ((Nat.toDigits 10 (n * Nat.pow 10 324 / d)).length : Int) - 325

def neighbours (tie : Tie) (magnitude : Nat) (digits : Nat) : List Decimal :=
  let (n, d) := (exact magnitude).fraction
  let e := leadingExponent n d - digits + 1
  let (a, b) := scale 10 n d e
  let low := stripZeros digits ⟨a / b, e⟩
  let high := stripZeros digits ⟨a / b + 1, e⟩
  let r := a % b
  let lowFirst := 2 * r < b || (2 * r == b && tie == .even && a / b % 2 == 0)
  if lowFirst then [low, high] else [high, low]

def onGrid? (tie : Tie) (magnitude : Nat) (digits : Nat) : Option Decimal :=
  (neighbours tie magnitude digits).find? fun x => x.bits == magnitude

/-- The fewest digits that read back, the nearest decimal of that many. Seventeen digits always
do; the exact expansion stands behind them. -/
def shortest (tie : Tie) (magnitude : Nat) : Decimal :=
  ((List.range 17).findSome? fun i => onGrid? tie magnitude (i + 1)).getD (exact magnitude)

end Wheelwork.Decimal
