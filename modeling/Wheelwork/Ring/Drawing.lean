import Wheelwork.Text.Blank

/-!
Labels drawn on an ellipse of alternating shaded sectors, one sector a label.
-/
namespace Wheelwork.Ring

def turn : Float := 6.28318530717958647692528676655900577

-- Angles stay below two turns here, where the subtraction is exact.
def belowTurn (angle : Float) : Float := if angle < turn then angle else angle - turn

def bearing (y x : Float) : Float :=
  let angle := Float.atan2 y x
  if angle < 0.0 then angle + turn else angle

structure Ellipse where
  radiusY : Float
  radiusX : Float
  height : Nat
  width : Nat
  sector : Float

def ellipse (count : Nat) : Ellipse :=
  let y := Float.ofNat count * 0.8
  let radiusY := if y < 4.0 then 4.0 else y
  let radiusX := radiusY * 2.0
  { radiusY, radiusX
    height := (2.0 * radiusY).toUInt64.toNat + 1
    width := (2.0 * radiusX).toUInt64.toNat + 1
    sector := turn / Float.ofNat count }

/-- The shade of a cell, blank outside the ellipse. Sectors are centred on their labels. -/
def shade (e : Ellipse) (row column : Nat) : Char :=
  let y := Float.ofNat row - e.radiusY
  let x := Float.ofNat column - e.radiusX
  if (x * x) / (e.radiusX * e.radiusX) + (y * y) / (e.radiusY * e.radiusY) > 1.0 then ' '
  else
    let shifted := belowTurn (bearing y x + e.sector / 2.0)
    if (shifted / e.sector).floor.toUInt64 % 2 == 0 then '░' else '▓'

def overwrite (width : Nat) (row : Array Char) (x : Int) (text : List Char) : Array Char :=
  let count : Int := text.length
  let start := (max (min (x - count / 2) (width - count)) 0).toNat
  text.zipIdx.foldl (fun row (c, k) => row.setIfInBounds (start + k) c) row

def place (e : Ellipse) (canvas : Array (Array Char)) (number : Nat) (text : List Char) :
    Array (Array Char) :=
  let angle := Float.ofNat number * e.sector
  let x := (e.radiusX * angle.cos + e.radiusX).toInt64.toInt
  let y := (e.radiusY * angle.sin + e.radiusY).toInt64.toInt
  if y < 0 then canvas else canvas.modify y.toNat fun row => overwrite e.width row x text

def marked (selected : Nat) (number : Nat) (label : String) : String :=
  if number = selected then "[" ++ label ++ "]" else label

def draw (labels : List String) (selected : Nat) : List String :=
  let e := ellipse labels.length
  let blank := Array.ofFn fun row : Fin e.height =>
    Array.ofFn fun column : Fin e.width => shade e row column
  let canvas := labels.zipIdx.foldl
    (fun canvas (label, i) => place e canvas i (marked selected i label).toList) blank
  canvas.toList.map fun row => String.ofList (Text.trimEnd row.toList)

def maxDrawn : Nat := 64

end Wheelwork.Ring
