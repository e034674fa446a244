/-!
Decimal numbers and the binary64 value nearest to one, in exact natural-number arithmetic.
-/
namespace Wheelwork

structure Decimal where
  coefficient : Nat
  exponent : Int
  deriving DecidableEq, Repr

namespace Decimal

def roundHalfEven (n d : Nat) : Nat :=
  let q := n / d
  let r := n % d
  if 2 * r < d then q
  else if d < 2 * r then q + 1
  else if q % 2 = 0 then q else q + 1

def scale (base : Nat) (n d : Nat) (e : Int) : Nat × Nat :=
  if 0 ≤ e then (n, d * Nat.pow base e.toNat) else (n * Nat.pow base (-e).toNat, d)

def leadingBit : Nat := 0x10000000000000

def signBit : Nat := 0x8000000000000000

/-- The exponent of two at which the positive fraction `n / d` has 53 binary digits before the
point, but never below that of the least positive value. -/
def binaryExponent (n d : Nat) : Int :=
  let e : Int := (n.log2 : Int) - d.log2 - 52
  let (a, b) := scale 2 n d e
  max (if a < b * leadingBit then e - 1 else e) (-1074)

def infinityBits : Nat := 0x7FF * leadingBit

/-- The bits of the binary64 value nearest to the positive fraction `n / d`. The significand is
added to the biased exponent, so that a carry out of it raises the exponent. -/
def roundedBits (n d : Nat) : Nat :=
  let e := binaryExponent n d
  let scaled := scale 2 n d e
  min ((e + 1074).toNat * leadingBit + roundHalfEven scaled.1 scaled.2) infinityBits

def nearestBits (n d : Nat) : Nat :=
  -- in lowest terms, so that the value of the fraction alone counts
  if n = 0 then 0 else roundedBits (n / n.gcd d) (d / n.gcd d)

def fraction (x : Decimal) : Nat × Nat := scale 10 x.coefficient 1 (-x.exponent)

def bits (x : Decimal) : Nat := nearestBits x.fraction.1 x.fraction.2

def signed (negative : Bool) (magnitude : Nat) : Float :=
  Float.ofBits (UInt64.ofNat ((if negative then signBit else 0) + magnitude))

def toFloat (negative : Bool) (x : Decimal) : Float := signed negative x.bits

def ofInt (n : Int) : Float := toFloat (n < 0) ⟨n.natAbs, 0⟩

end Decimal
end Wheelwork
