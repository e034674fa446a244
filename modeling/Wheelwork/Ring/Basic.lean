/-!
Directions of travel and circular addressing.
-/
namespace Wheelwork

inductive Direction where
  | forward
  | backward
  deriving DecidableEq, Repr

namespace Direction

def ofArg? (arg : Int64) : Option Direction :=
  if arg = 1 then some .forward else if arg = -1 then some .backward else none

def sign : Direction → Int
  | .forward => 1
  | .backward => -1

def name : Direction → String
  | .forward => "Forward"
  | .backward => "Backward"

end Direction

namespace Ring

def displacement (direction : Direction) (steps : Int64) : Int := direction.sign * steps.toInt

/-- The slot reached from a position on a ring of `size` slots: the floored remainder. -/
def index (position : Nat) (direction : Direction) (steps : Int64) (size : Nat) : Nat :=
  (((position : Int) + displacement direction steps) % (size : Int)).toNat

end Ring
end Wheelwork
