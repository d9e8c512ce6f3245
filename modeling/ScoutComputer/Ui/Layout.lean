import ScoutComputer.Lib.Truncation

/-!
# `Drawable`, `Empty` and `DrawableList`

A container draws its children at positions it computes from its own place and size and
from theirs. A number is what a `ShouldScale` comes to while the window keeps its size,
and arithmetic on it is exact; a position is an `int`, so it is truncated.
-/

namespace ScoutComputer

open Truncation

/-- `DISPLAYPOS`. -/
inductive DisplayPos where
  | topLeft
  | centerLeft
  | bottomLeft
  | topCentered
  | centered
  | bottomCentered
  | topRight
  | centerRight
  | bottomRight
  deriving DecidableEq

/-- What a container asks a `Drawable` for. -/
structure Drawable where
  wantedPos : DisplayPos
  getWidth : Rat
  getHeight : Rat

/-- A call of `draw` on a child. -/
structure DrawCall where
  current : Drawable
  x : Int
  y : Int

structure Rectangle where
  x : Rat
  y : Rat
  width : Rat
  height : Rat

/-! ## `Empty` -/

structure Empty where
  thingsToDraw : List Drawable
  x : Rat
  y : Rat
  width : Rat
  height : Rat

namespace Empty

/-- The `switch` of `draw`: `xPos` and `yPos` for one child. -/
def position (e : Empty) (current : Drawable) : Int × Int :=
  match current.wantedPos with
  | .bottomCentered =>
      (trunc (e.x + (e.width / 2 - current.getWidth / 2)),
        trunc ((e.y + e.height) - current.getHeight))
  | .bottomLeft => (trunc e.x, trunc ((e.y + e.height) - current.getHeight))
  | .bottomRight =>
      (trunc (e.width - current.getWidth), trunc ((e.y + e.height) - current.getHeight))
  | .centered =>
      (trunc (e.x + (e.width / 2 - current.getWidth / 2)),
        trunc ((e.y + e.height / 2) - current.getHeight / 2))
  | .centerLeft => (trunc e.x, trunc ((e.y + e.height / 2) - current.getHeight / 2))
  | .centerRight =>
      (trunc ((e.x + e.width) - current.getWidth),
        trunc ((e.y + e.height / 2) - current.getHeight / 2))
  | .topCentered => (trunc (e.x + (e.width / 2 - current.getWidth / 2)), trunc e.y)
  | .topLeft => (trunc e.x, trunc e.y)
  | .topRight => (trunc ((e.x + e.width) - current.getWidth), trunc e.y)

/-- `draw(x, y)`: the container it leaves and the calls it makes, in order. -/
def draw (e : Empty) (x y : Int) : Empty × List DrawCall :=
  let e := { e with x := x, y := y }
  (e, e.thingsToDraw.map fun current =>
    ⟨current, (e.position current).1, (e.position current).2⟩)

/-- `updateAndDraw(Rectangle)`. -/
def updateAndDraw (e : Empty) (size : Rectangle) : Empty × List DrawCall :=
  { e with width := size.width, height := size.height }.draw (trunc size.x) (trunc size.y)

/-- `updateAndDraw(x, y, width, height)`. It passes `x` on for both coordinates. -/
def updateAndDrawFour (e : Empty) (x _y width height : Rat) : Empty × List DrawCall :=
  { e with width := width, height := height }.draw (trunc x) (trunc x)

end Empty

/-! ## `DrawableList` -/

/-- `EXPANSIONTYPE`. -/
inductive ExpansionType where
  | vertical
  | horizontal
  | none
  deriving DecidableEq

structure DrawableList where
  thingsToDraw : List Drawable
  expansionType : ExpansionType
  seperation : Int

namespace DrawableList

section
variable (seperation : Int)

/-- The loop of `draw` for `HORIZONTAL`. -/
def drawHorizontal (xCurrent yCurrent : Int) : List Drawable → List DrawCall
  | [] => []
  | current :: rest =>
      ⟨current, xCurrent, yCurrent⟩ ::
        drawHorizontal (trunc ((xCurrent + seperation : Int) + current.getWidth)) yCurrent rest

/-- The loop of `draw` for `VERTICAL`. -/
def drawVertical (xCurrent yCurrent : Int) : List Drawable → List DrawCall
  | [] => []
  | current :: rest =>
      ⟨current, xCurrent, yCurrent⟩ ::
        drawVertical xCurrent (trunc ((yCurrent + seperation : Int) + current.getHeight)) rest

/-- The loops that add up one of the sizes, and the space behind each child. -/
def addUp (size : Drawable → Rat) : Rat → List Drawable → Rat
  | width, [] => width
  | width, current :: rest => addUp size (width + size current + seperation) rest

end

/-- The loops that look for the largest of the sizes. -/
def largest (size : Drawable → Rat) : Rat → List Drawable → Rat
  | maxWidth, [] => maxWidth
  | maxWidth, current :: rest =>
      largest size (if size current > maxWidth then size current else maxWidth) rest

/-- The calls that `draw(x, y)` makes, in order. -/
def draw (l : DrawableList) (x y : Int) : List DrawCall :=
  match l.expansionType with
  | .horizontal => drawHorizontal l.seperation x y l.thingsToDraw
  | .vertical => drawVertical l.seperation x y l.thingsToDraw
  | .none => l.thingsToDraw.map fun current => ⟨current, x, y⟩

def getWidth (l : DrawableList) : Rat :=
  match l.expansionType with
  | .vertical => largest Drawable.getWidth 0 l.thingsToDraw
  | .horizontal => addUp l.seperation Drawable.getWidth 0 l.thingsToDraw
  | .none => largest Drawable.getWidth 0 l.thingsToDraw

def getHeight (l : DrawableList) : Rat :=
  match l.expansionType with
  | .vertical => addUp l.seperation Drawable.getHeight 0 l.thingsToDraw
  | .horizontal => largest Drawable.getHeight 0 l.thingsToDraw
  | .none => largest Drawable.getHeight 0 l.thingsToDraw

end DrawableList

end ScoutComputer
