import Mathlib.Tactic.NormNum
import Mathlib.Tactic.Ring
import ScoutComputer.Lib.Placement
import ScoutComputer.Ui.Layout

/-!
# Where a container draws its children

Eight of the nine anchors, and the overload that takes a rectangle, place every child
that fits inside the container and at its edges. `BOTTOMRIGHT` leaves out the container's
own `x`, and the overload that takes four numbers draws at `(x, x)`.
-/

namespace ScoutComputer

open Placement Truncation

namespace DisplayPos

/-- The horizontal edge a position names. -/
def column : DisplayPos → Align
  | .topLeft => .start
  | .centerLeft => .start
  | .bottomLeft => .start
  | .topCentered => .center
  | .centered => .center
  | .bottomCentered => .center
  | .topRight => .stop
  | .centerRight => .stop
  | .bottomRight => .stop

/-- The vertical edge a position names. -/
def row : DisplayPos → Align
  | .topLeft => .start
  | .topCentered => .start
  | .topRight => .start
  | .centerLeft => .center
  | .centered => .center
  | .centerRight => .center
  | .bottomLeft => .stop
  | .bottomCentered => .stop
  | .bottomRight => .stop

end DisplayPos

namespace Drawable

/-- A child that is no larger than the container. -/
def Fits (c : Drawable) (width height : Rat) : Prop := c.getWidth ≤ width ∧ c.getHeight ≤ height

end Drawable

/-- The child is inside the rectangle, at the edges its position names. -/
structure DrawCall.Placed (d : DrawCall) (size : Rectangle) : Prop where
  column : Within size.x size.width d.x d.current.getWidth
  row : Within size.y size.height d.y d.current.getHeight
  atColumn : Anchored d.current.wantedPos.column size.x size.width d.x d.current.getWidth
  atRow : Anchored d.current.wantedPos.row size.y size.height d.y d.current.getHeight

namespace Empty

variable {e : Empty} {x y : Nat} {width height : Rat}

/-! ## One child -/

theorem position_row (e : Empty) (c : Drawable) :
    (e.position c).2 = trunc (e.y + inset c.wantedPos.row e.height c.getHeight) := by
  unfold position inset
  cases c.wantedPos with
  | topLeft => exact congrArg trunc (show e.y = e.y + (0 - 0) by ring)
  | topCentered => exact congrArg trunc (show e.y = e.y + (0 - 0) by ring)
  | topRight => exact congrArg trunc (show e.y = e.y + (0 - 0) by ring)
  | centerLeft => exact congrArg trunc (add_sub_assoc _ _ _)
  | centered => exact congrArg trunc (add_sub_assoc _ _ _)
  | centerRight => exact congrArg trunc (add_sub_assoc _ _ _)
  | bottomLeft => exact congrArg trunc (add_sub_assoc _ _ _)
  | bottomCentered => exact congrArg trunc (add_sub_assoc _ _ _)
  | bottomRight => exact congrArg trunc (add_sub_assoc _ _ _)

theorem position_column (e : Empty) {c : Drawable} (hc : e.x = 0 ∨ c.wantedPos ≠ .bottomRight) :
    (e.position c).1 = trunc (e.x + inset c.wantedPos.column e.width c.getWidth) := by
  unfold position inset
  cases hpos : c.wantedPos with
  | topLeft => exact congrArg trunc (show e.x = e.x + (0 - 0) by ring)
  | centerLeft => exact congrArg trunc (show e.x = e.x + (0 - 0) by ring)
  | bottomLeft => exact congrArg trunc (show e.x = e.x + (0 - 0) by ring)
  | topCentered => rfl
  | centered => rfl
  | bottomCentered => rfl
  | topRight => exact congrArg trunc (add_sub_assoc _ _ _)
  | centerRight => exact congrArg trunc (add_sub_assoc _ _ _)
  | bottomRight =>
      rcases hc with hx | hne
      · rw [hx]
        exact congrArg trunc (zero_add _).symm
      · exact absurd hpos hne

theorem position_bottomRight (e : Empty) {c : Drawable} (hc : c.wantedPos = .bottomRight) :
    (e.position c).1 = trunc (e.width - c.getWidth) := by
  unfold position
  rw [hc]

/-! ## One container -/

/-- The container as `draw(x, y)` finds it. -/
def at' (e : Empty) (x y : Nat) (width height : Rat) : Empty :=
  { e with x := x, y := y, width := width, height := height }

/-- The calls of `draw` on a container at `(x, y)`. -/
def callsAt (e : Empty) (x y : Nat) (width height : Rat) : List DrawCall :=
  e.thingsToDraw.map fun c =>
    ⟨c, ((e.at' x y width height).position c).1, ((e.at' x y width height).position c).2⟩

theorem updateAndDraw_calls (e : Empty) (x y : Nat) (width height : Rat) :
    (e.updateAndDraw ⟨x, y, width, height⟩).2 = e.callsAt x y width height := by
  unfold updateAndDraw draw callsAt at'
  simp

theorem updateAndDrawFour_calls (e : Empty) (x y : Nat) (width height : Rat) :
    (e.updateAndDrawFour x y width height).2 = e.callsAt x x width height := by
  unfold updateAndDrawFour draw callsAt at'
  simp

/-- Without the slip of `BOTTOMRIGHT`, children that fit are placed. -/
theorem placed_callsAt (h : x = 0 ∨ ∀ c ∈ e.thingsToDraw, c.Fits width height →
      c.wantedPos ≠ .bottomRight) :
    ∀ d ∈ e.callsAt x y width height, d.current.Fits width height →
      d.Placed ⟨x, y, width, height⟩ := by
  intro d hd hfits
  obtain ⟨c, hc, rfl⟩ := List.mem_map.mp hd
  have hx0 : (0 : Rat) ≤ x := Nat.cast_nonneg x
  have hy0 : (0 : Rat) ≤ y := Nat.cast_nonneg y
  have hcol := position_column (e.at' x y width height) (c := c)
    (h.imp (fun hx => by rw [hx]; rfl) fun hall => hall c hc hfits)
  have hrow := position_row (e.at' x y width height) c
  refine ⟨?_, ?_, ?_, ?_⟩
  · dsimp only
    rw [hcol]
    exact within_placed hx0 hfits.1
  · dsimp only
    rw [hrow]
    exact within_placed hy0 hfits.2
  · dsimp only
    rw [hcol]
    exact anchored_placed hx0 hfits.1
  · dsimp only
    rw [hrow]
    exact anchored_placed hy0 hfits.2

/-- A child at `BOTTOMRIGHT` is drawn `x` pixels off its edge. -/
theorem not_placed_bottomRight {c : Drawable} (hx : x ≠ 0) (hc : c ∈ e.thingsToDraw)
    (hfits : c.Fits width height) (hpos : c.wantedPos = .bottomRight) :
    ¬ ∀ d ∈ e.callsAt x y width height, d.current.Fits width height →
      d.Placed ⟨x, y, width, height⟩ := by
  intro hall
  have hplaced := (hall _ (List.mem_map.mpr ⟨c, hc, rfl⟩) hfits).atColumn
  dsimp only at hplaced
  rw [position_bottomRight _ hpos, hpos] at hplaced
  have hle : (trunc (width - c.getWidth) : Rat) ≤ width - c.getWidth :=
    trunc_le (sub_nonneg.mpr hfits.1)
  have hone : (1 : Rat) ≤ x := by exact_mod_cast Nat.one_le_iff_ne_zero.mpr hx
  have hlo := (abs_lt.mp hplaced).1
  change (-1 : Rat) < trunc (width - c.getWidth) + c.getWidth - (x + width) at hlo
  linarith

/-! ## The two overloads -/

/-- The child stands out so far that rows one pixel apart are truncated alike. -/
def Overhangs (x y : Nat) (height : Rat) (c : Drawable) : Prop :=
  (x = y + 1 ∨ y = x + 1) ∧ -1 < (min x y : Nat) + inset c.wantedPos.row height c.getHeight ∧
    (min x y : Nat) + inset c.wantedPos.row height c.getHeight < 0

theorem row_shift_iff {q : Rat} (x k : Nat) :
    trunc ((x + k + 1 : Nat) + q) = trunc (x + q) ↔ k = 0 ∧ -1 < x + q ∧ x + q < 0 := by
  have hsum : ((x + k + 1 : Nat) : Rat) + q = (x + q) + (k + 1 : Nat) := by
    push_cast
    ring
  have hk : k + 1 = 1 ↔ k = 0 := by omega
  rw [hsum, trunc_add_eq_iff (Nat.succ_pos k), hk]

theorem row_eq_iff {q : Rat} : trunc (y + q) = trunc (x + q) ↔
    x = y ∨ (x = y + 1 ∨ y = x + 1) ∧ -1 < (min x y : Nat) + q ∧ (min x y : Nat) + q < 0 := by
  rcases Nat.lt_trichotomy x y with hlt | heq | hgt
  · obtain ⟨k, rfl⟩ := Nat.exists_eq_add_of_lt hlt
    have hk : (x = x + k + 1 + 1 ∨ x + k + 1 = x + 1) ↔ k = 0 := by omega
    rw [row_shift_iff, Nat.min_eq_left hlt.le, hk, or_iff_right hlt.ne]
  · subst heq
    exact ⟨fun _ => Or.inl rfl, fun _ => rfl⟩
  · obtain ⟨k, rfl⟩ := Nat.exists_eq_add_of_lt hgt
    have hk : (y + k + 1 = y + 1 ∨ y = y + k + 1 + 1) ↔ k = 0 := by omega
    rw [eq_comm, row_shift_iff, Nat.min_eq_right hgt.le, hk, or_iff_right hgt.ne']

/-- The column of a child does not depend on the row of its container. -/
theorem position_fst (e : Empty) (x y y' : Nat) (width height : Rat) (c : Drawable) :
    ((e.at' x y width height).position c).1 = ((e.at' x y' width height).position c).1 := by
  unfold position at'
  cases c.wantedPos <;> rfl

theorem callsAt_eq_iff : e.callsAt x y width height = e.callsAt x x width height ↔
    x = y ∨ ∀ c ∈ e.thingsToDraw, Overhangs x y height c := by
  have hcall : ∀ c, (⟨c, ((e.at' x y width height).position c).1,
      ((e.at' x y width height).position c).2⟩ : DrawCall) =
      ⟨c, ((e.at' x x width height).position c).1, ((e.at' x x width height).position c).2⟩ ↔
        x = y ∨ Overhangs x y height c := by
    intro c
    rw [DrawCall.mk.injEq, position_fst e x y x width height c, position_row, position_row]
    have hrow := row_eq_iff (x := x) (y := y) (q := inset c.wantedPos.row height c.getHeight)
    exact ⟨fun h => hrow.mp h.2.2, fun h => ⟨rfl, rfl, hrow.mpr h⟩⟩
  unfold callsAt
  rw [List.map_inj_left]
  constructor
  · intro h
    by_cases hxy : x = y
    · exact Or.inl hxy
    · exact Or.inr fun c hc => ((hcall c).mp (h c hc)).resolve_left hxy
  · intro h c hc
    exact (hcall c).mpr (h.imp_right fun hall => hall c hc)

/--
Both overloads draw every child, those that fit inside the rectangle and at the edges
they name, and both at the same place.
-/
structure LaidOut (e : Empty) (x y : Nat) (width height : Rat) : Prop where
  drawn : (e.updateAndDraw ⟨x, y, width, height⟩).2.map DrawCall.current = e.thingsToDraw
  rectangle : ∀ d ∈ (e.updateAndDraw ⟨x, y, width, height⟩).2, d.current.Fits width height →
    d.Placed ⟨x, y, width, height⟩
  four : ∀ d ∈ (e.updateAndDrawFour x y width height).2, d.current.Fits width height →
    d.Placed ⟨x, y, width, height⟩
  alike : (e.updateAndDraw ⟨x, y, width, height⟩).2 = (e.updateAndDrawFour x y width height).2

/--
**The layout is right** exactly when no child that fits is at `BOTTOMRIGHT` of a
container off the left edge of the window, and the container is on the diagonal (or so
small that the truncation hides that it is drawn one pixel off).
-/
theorem laidOut_iff (e : Empty) (x y : Nat) (width height : Rat) :
    LaidOut e x y width height ↔
      (x = 0 ∨ ∀ c ∈ e.thingsToDraw, c.Fits width height → c.wantedPos ≠ .bottomRight) ∧
      (x = y ∨ ∀ c ∈ e.thingsToDraw, Overhangs x y height c) := by
  have hdraw := updateAndDraw_calls e x y width height
  have hfour := updateAndDrawFour_calls e x y width height
  constructor
  · intro ⟨_, hrectangle, _, halike⟩
    rw [hdraw] at hrectangle
    rw [hdraw, hfour] at halike
    refine ⟨?_, callsAt_eq_iff.mp halike⟩
    by_cases hx : x = 0
    · exact Or.inl hx
    · exact Or.inr fun c hc hfits hpos => not_placed_bottomRight hx hc hfits hpos hrectangle
  · intro ⟨hright, hdiagonal⟩
    have halike : e.callsAt x y width height = e.callsAt x x width height :=
      callsAt_eq_iff.mpr hdiagonal
    have hplaced := placed_callsAt (y := y) hright
    refine ⟨?_, ?_, ?_, ?_⟩
    · rw [hdraw]
      unfold callsAt
      rw [List.map_map]
      exact List.map_id _
    · rw [hdraw]
      exact hplaced
    · rw [hfour, ← halike]
      exact hplaced
    · rw [hdraw, hfour, halike]

/-- A button at `BOTTOMRIGHT`, in a container that is not at the left edge. -/
def resetTabs : Empty := ⟨[⟨.bottomRight, 200, 100⟩], 0, 0, 0, 0⟩

theorem resetTabs_misplaced : ¬ LaidOut resetTabs 10 20 1280 612 := by
  intro ⟨_, hrectangle, _, _⟩
  rw [updateAndDraw_calls] at hrectangle
  have hfits : (⟨.bottomRight, 200, 100⟩ : Drawable).Fits 1280 612 := by
    unfold Drawable.Fits
    constructor <;> norm_num
  exact not_placed_bottomRight (by decide) List.mem_cons_self hfits rfl hrectangle

end Empty

end ScoutComputer
