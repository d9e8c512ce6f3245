import ScoutComputer.Lib.Placement
import ScoutComputer.Ui.Layout

/-!
# `TabHandler`

The tabs share the width of the bar. Each begins at a whole pixel and is as wide as its
share, so that they fit together up to a pixel.
-/

namespace ScoutComputer

open Placement Truncation

/-- `setWidth`, `setHeight` and `drawTab` of one tab. -/
structure TabCall (α : Type) where
  current : α
  x : Int
  y : Int
  width : Rat
  height : Rat

/-- `isHovering` of the button afterwards, for the pixel the mouse is on. -/
def TabCall.isHovering {α : Type} (call : TabCall α) (px py : Int) : Prop :=
  (call.x ≤ px ∧ (px : Rat) < call.x + call.width) ∧
    (call.y ≤ py ∧ (py : Rat) < call.y + call.height)

structure TabHandler (α : Type) where
  thingsToDraw : List α
  x : Rat
  y : Rat
  width : Rat
  height : Rat

namespace TabHandler

variable {α : Type}

def add (t : TabHandler α) (drawable : α) : TabHandler α :=
  { t with thingsToDraw := t.thingsToDraw ++ [drawable] }

/-- `draw(x, y)`: what is left of the handler, and the calls it makes, in order. -/
def draw (t : TabHandler α) (x y : Int) : TabHandler α × List (TabCall α) :=
  let t := { t with x := x, y := y }
  let buttonWidth : Rat := t.width / t.thingsToDraw.length
  (t, t.thingsToDraw.zipIdx.map fun (current, i) =>
    ⟨current, trunc (i * buttonWidth + t.x), trunc t.y, buttonWidth, t.height⟩)

/-- `updateAndDraw(Rectangle)`. -/
def updateAndDraw (t : TabHandler α) (size : Rectangle) : TabHandler α × List (TabCall α) :=
  { t with width := size.width, height := size.height }.draw (trunc size.x) (trunc size.y)

/-! ## Where the tabs are -/

variable {t : TabHandler α} {size : Rectangle} {x y width : Nat} {i j : Nat} {px py : Int}

/-- Every tab is a cell of the bar. -/
theorem updateAndDraw_getElem? (hx : size.x = x) (hy : size.y = y) :
    (t.updateAndDraw size).2[i]? = t.thingsToDraw[i]?.map fun current =>
      ⟨current, cellStart x (size.width / t.thingsToDraw.length) i, y,
        size.width / t.thingsToDraw.length, size.height⟩ := by
  unfold updateAndDraw draw
  dsimp only
  rw [List.getElem?_map, List.getElem?_zipIdx, Option.map_map, hx, hy]
  refine congrArg (fun f => t.thingsToDraw[i]?.map f) (funext fun current => ?_)
  simp [cellStart]

theorem hovering_iff (hx : size.x = x) (hy : size.y = y) {call : TabCall α}
    (hcall : (t.updateAndDraw size).2[i]? = some call) :
    call.isHovering px py ↔
      InCell x (size.width / t.thingsToDraw.length) i px ∧
        ((y : Int) ≤ py ∧ (py : Rat) < y + size.height) := by
  rw [updateAndDraw_getElem? hx hy] at hcall
  obtain ⟨current, -, rfl⟩ := Option.map_eq_some_iff.mp hcall
  unfold TabCall.isHovering InCell
  simp only [Int.cast_natCast]

end TabHandler

end ScoutComputer
