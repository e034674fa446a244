import Wheelwork.Fault

/-!
The queue of arguments: values leave in the order in which they came.
-/
namespace Wheelwork

/-- The oldest values first in `front`, the newest first in `back`. -/
structure ArgQueue where
  front : List Value := []
  back : List Value := []

namespace ArgQueue

def toList (q : ArgQueue) : List Value := q.front ++ q.back.reverse

def size (q : ArgQueue) : Nat := q.front.length + q.back.length

def push (q : ArgQueue) (v : Value) : ArgQueue := { q with back := v :: q.back }

def pop (q : ArgQueue) : Except Fault (Value × ArgQueue) :=
  match q.front with
  | v :: front => .ok (v, { q with front })
  | [] =>
    match q.back.reverse with
    | v :: front => .ok (v, { front, back := [] })
    | [] => .error .noArgument

def take? (q : ArgQueue) (count : Nat) : Option (List Value × ArgQueue) :=
  let ready := q.front.take count
  if ready.length = count then some (ready, { q with front := q.front.drop count })
  else
    let all := q.toList
    if count ≤ all.length then some (all.take count, { front := all.drop count, back := [] })
    else none

def ensure (q : ArgQueue) (count : Nat) : Except Fault Unit :=
  if count ≤ q.size then .ok () else .error (.queueShort count q.size)

def drain (q : ArgQueue) (count : Nat) : Except Fault (List Value × ArgQueue) :=
  match q.take? count with
  | some taken => .ok taken
  | none => .error (.queueShort count q.size)

end ArgQueue
end Wheelwork
