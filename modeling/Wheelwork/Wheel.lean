import Wheelwork.Fault
import Wheelwork.Ring.Basic
import Wheelwork.Ring.Drawing

/-!
Wheels: values on a ring, with a cursor, a direction of travel and a comparison flag.
-/
namespace Wheelwork

structure Wheel where
  values : Array Value := #[]
  cursor : Nat := 0
  direction : Direction := .forward
  flag : Bool := false

namespace Wheel

def ofValues (values : List Value) : Wheel := { values := values.toArray }

def size (w : Wheel) : Nat := w.values.size

def isEmpty (w : Wheel) : Bool := w.values.isEmpty

def push (w : Wheel) (v : Value) : Wheel := { w with values := w.values.push v }

def put (w : Wheel) (v : Value) : Wheel := { w with values := w.values.setIfInBounds w.cursor v }

def setFlag (w : Wheel) (flag : Bool) : Wheel := { w with flag }

def setDirection (w : Wheel) (direction : Direction) : Wheel := { w with direction }

def ensureNotEmpty (w : Wheel) : Except Fault Unit :=
  if w.isEmpty then .error .emptyWheel else .ok ()

def current (w : Wheel) : Except Fault Value :=
  match w.values[w.cursor]? with
  | some v => .ok v
  | none => .error .emptyWheel

def currentInteger (w : Wheel) : Except Fault Int64 :=
  match w.current with
  | .ok (.integer n) => .ok n
  | .ok v => .error (.notNumeric v)
  | .error f => .error f

def setCurrent (w : Wheel) (v : Value) : Except Fault Wheel :=
  match w.current with
  | .ok _ => .ok (w.put v)
  | .error f => .error f

def rotate (w : Wheel) (steps : Int64) : Except Fault Wheel :=
  if w.isEmpty then .error .emptyWheel
  else .ok { w with cursor := Ring.index w.cursor w.direction steps w.size }

def render (w : Wheel) : List String :=
  if w.isEmpty then ["no variables"]
  else
    let labels := w.values.toList.map Value.display
    let picture :=
      if labels.length ≤ Ring.maxDrawn then Ring.draw labels w.cursor
      else [toString labels.length ++ " values, cursor at " ++ toString w.cursor]
    picture ++ ["[" ++ String.intercalate " " labels ++ "]"]

def json (w : Wheel) : Json :=
  .object [("values", .array (w.values.toList.map Value.json)), ("cursor", Json.int w.cursor),
    ("direction", .string w.direction.name), ("flag", .bool w.flag)]

end Wheel
end Wheelwork
