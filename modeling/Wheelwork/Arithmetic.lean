import Wheelwork.ArgQueue
import Wheelwork.Program.Basic
import Wheelwork.Wheel

/-!
The four arithmetic operations over queued arguments, over the whole wheel, or with a literal.
Integers wrap at 64 bits.
-/
namespace Wheelwork

inductive Arithmetic where
  | add
  | sub
  | mul
  | div
  deriving DecidableEq, Repr

namespace Arithmetic

def sum (xs : List Int64) : Int64 := xs.foldl (· + ·) 0

def product (xs : List Int64) : Int64 := xs.foldl (· * ·) 1

def difference : List Int64 → Except Fault Int64
  | [] => .error .noArgument
  | x :: xs => .ok (xs.foldl (· - ·) x)

def quotient : List Int64 → Except Fault Int64
  | [] => .error .noArgument
  | x :: xs => if xs.contains 0 then .error .divisionByZero else .ok (xs.foldl (· / ·) x)

def ratio : List Int64 → Except Fault Float
  | [] => .error .noArgument
  | x :: xs =>
    if xs.contains 0 then .error .divisionByZero
    else .ok (xs.foldl (fun q n => q / n.toFloat) x.toFloat)

def integers (flaw : Value → Fault) : List Value → Except Fault (List Int64)
  | [] => .ok []
  | .integer n :: vs =>
    match integers flaw vs with
    | .ok ns => .ok (n :: ns)
    | .error f => .error f
  | v :: _ => .error (flaw v)

def least : Arithmetic → Nat
  | .add => 0
  | _ => 1

def ofQueued (op : Arithmetic) (xs : List Int64) : Except Fault Value :=
  match op with
  | .add => .ok (.integer (sum xs))
  | .sub => (difference xs).map .integer
  | .mul => .ok (.integer (product xs))
  | .div => (quotient xs).map .integer

/-- The result over all values of a wheel; here division leaves the integers. -/
def ofWheel (op : Arithmetic) (xs : List Int64) : Except Fault Value :=
  match op with
  | .div => (ratio xs).map .float
  | op => op.ofQueued xs

def withLiteral? : Arithmetic → Option (Int64 → Int64 → Int64)
  | .add => some (· + ·)
  | .mul => some (· * ·)
  | _ => none

def whenEmpty : Arithmetic → Fault
  | .add | .mul => .emptyWheel
  | .sub | .div => .noArgument

def claim (op : Arithmetic) (i : Instruction) (q : ArgQueue) :
    Except Fault (List Value × ArgQueue) :=
  if i.int < 0 then .error (.negativeCount i.int)
  else if i.int.toInt.toNat < op.least then .error (.tooFewOperands i.opcode op.least)
  else q.drain i.int.toInt.toNat

def overWheel (op : Arithmetic) (w : Wheel) : Except Fault Value :=
  if w.isEmpty then .error op.whenEmpty
  else
    match integers .notNumeric w.values.toList with
    | .ok xs => op.ofWheel xs
    | .error f => .error f

def direct (op : Arithmetic) (i : Instruction) (w : Wheel) : Except Fault Value :=
  match op.withLiteral? with
  | some apply => if i.int ≠ 0 then w.currentInteger.map fun n => .integer (apply n i.int)
    else op.overWheel w
  | none => op.overWheel w

/-- The result of an instruction and the queue that it leaves. Claimed values are gone also when
they turn out to be unfit. -/
def compute (op : Arithmetic) (i : Instruction) (w : Wheel) (q : ArgQueue) :
    Except Fault Value × ArgQueue :=
  if i.args then
    match op.claim i q with
    | .error f => (.error f, q)
    | .ok (taken, rest) =>
      match integers .badOperand taken with
      | .ok xs => (op.ofQueued xs, rest)
      | .error f => (.error f, rest)
  else (op.direct i w, q)

end Arithmetic
end Wheelwork
