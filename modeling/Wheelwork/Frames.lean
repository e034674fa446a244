import Wheelwork.Wheel

/-!
The stack of wheels: that of the function being run on top, the global one at the bottom.
-/
namespace Wheelwork

structure Frames where
  active : Wheel := {}
  /-- The wheels below the active one, topmost first. -/
  below : List Wheel := []

namespace Frames

def toList (f : Frames) : List Wheel := f.active :: f.below

def depth (f : Frames) : Nat := f.below.length + 1

def bottom (f : Frames) : Wheel := f.below.getLastD f.active

def push (f : Frames) (w : Wheel) : Frames := { active := w, below := f.active :: f.below }

def pop? (f : Frames) : Option (Wheel × Frames) :=
  match f.below with
  | [] => none
  | w :: below => some (f.active, { active := w, below })

end Frames
end Wheelwork
