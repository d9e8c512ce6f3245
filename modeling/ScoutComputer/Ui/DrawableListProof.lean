import Mathlib.Algebra.Order.Ring.Rat
import ScoutComputer.Lib.Placement
import ScoutComputer.Ui.Layout

/-!
# A list draws inside the size it reports

The list adds up the sizes of its children and the space behind each; it draws them at
positions that are truncated on the way, so never further on than the sum.
-/

namespace ScoutComputer

open Placement Truncation

namespace DrawableList

variable {l : DrawableList} {x y sep : Int} {cs : List Drawable} {c : Drawable}

/-! ## Sizes -/

theorem addUp_eq (size : Drawable → Rat) (width : Rat) :
    addUp sep size width cs = width + total size sep cs := by
  induction cs generalizing width with
  | nil => exact (add_zero width).symm
  | cons c cs ih =>
      have htotal : total size sep (c :: cs) = size c + sep + total size sep cs := List.sum_cons
      rw [addUp, ih, htotal, add_assoc, add_assoc, add_assoc]

theorem le_largest (size : Drawable → Rat) (width : Rat) : width ≤ largest size width cs := by
  induction cs generalizing width with
  | nil => exact le_refl _
  | cons c cs ih =>
      rw [largest]
      refine le_trans ?_ (ih _)
      split
      · rename_i hgt
        exact hgt.le
      · exact le_refl _

theorem size_le_largest (size : Drawable → Rat) (width : Rat) (hc : c ∈ cs) :
    size c ≤ largest size width cs := by
  induction cs generalizing width with
  | nil => exact absurd hc List.not_mem_nil
  | cons b cs ih =>
      rw [largest]
      rcases List.mem_cons.mp hc with rfl | hc
      · refine le_trans ?_ (le_largest size _)
        split
        · exact le_refl _
        · rename_i hle
          exact not_lt.mp hle
      · exact ih _ hc

/-! ## Positions -/

theorem drawHorizontal_eq : drawHorizontal sep x y cs =
    (stacked Drawable.getWidth sep x cs).map fun p => ⟨p.1, p.2, y⟩ := by
  induction cs generalizing x with
  | nil => rfl
  | cons c cs ih => rw [drawHorizontal, ih, stacked, List.map_cons]

theorem drawVertical_eq : drawVertical sep x y cs =
    (stacked Drawable.getHeight sep y cs).map fun p => ⟨p.1, x, p.2⟩ := by
  induction cs generalizing y with
  | nil => rfl
  | cons c cs ih => rw [drawVertical, ih, stacked, List.map_cons]

/-- Every child is drawn once, in the order of the list. -/
theorem draw_current (l : DrawableList) (x y : Int) :
    (l.draw x y).map DrawCall.current = l.thingsToDraw := by
  unfold draw
  cases l.expansionType with
  | horizontal =>
      dsimp only
      rw [drawHorizontal_eq, List.map_map]
      exact stacked_map_fst
  | vertical =>
      dsimp only
      rw [drawVertical_eq, List.map_map]
      exact stacked_map_fst
  | none =>
      dsimp only
      rw [List.map_map]
      exact List.map_id _

theorem current_mem {d : DrawCall} (hd : d ∈ l.draw x y) : d.current ∈ l.thingsToDraw := by
  rw [← draw_current l x y]
  exact List.mem_map_of_mem hd

/-- The box of a child drawn by `d` is in the box that the list reports. -/
structure Contains (l : DrawableList) (x y : Int) (d : DrawCall) : Prop where
  left : x ≤ d.x
  right : (d.x + d.current.getWidth : Rat) ≤ x + l.getWidth
  top : y ≤ d.y
  bottom : (d.y + d.current.getHeight : Rat) ≤ y + l.getHeight

/-- Along the list's direction, the box of `d` ends before the box of `e` begins. -/
def Before (expansionType : ExpansionType) (d e : DrawCall) : Prop :=
  match expansionType with
  | .horizontal => (d.x + d.current.getWidth : Rat) < e.x
  | .vertical => (d.y + d.current.getHeight : Rat) < e.y
  | .none => True

/-- Children whose sizes are not negative. -/
def SizesNonneg (l : DrawableList) : Prop :=
  ∀ c ∈ l.thingsToDraw, 0 ≤ c.getWidth ∧ 0 ≤ c.getHeight

theorem contains_horizontal (hsizes : l.SizesNonneg) (hsep : 0 ≤ l.seperation)
    (h : l.expansionType = .horizontal) (hx : 0 ≤ x) {d : DrawCall} (hd : d ∈ l.draw x y) :
    l.Contains x y d := by
  have hmem := current_mem hd
  unfold draw at hd
  rw [h] at hd
  dsimp only at hd
  rw [drawHorizontal_eq] at hd
  obtain ⟨p, hp, rfl⟩ := List.mem_map.mp hd
  obtain ⟨hlo, hhi⟩ := stacked_within hx hsep (fun c hc => (hsizes c hc).1) hp
  refine ⟨hlo, ?_, le_refl y, ?_⟩
  · unfold getWidth
    rw [h]
    dsimp only
    rw [addUp_eq, zero_add]
    exact hhi
  · unfold getHeight
    rw [h]
    exact add_le_add_right (size_le_largest Drawable.getHeight 0 hmem) _

theorem contains_vertical (hsizes : l.SizesNonneg) (hsep : 0 ≤ l.seperation)
    (h : l.expansionType = .vertical) (hy : 0 ≤ y) {d : DrawCall} (hd : d ∈ l.draw x y) :
    l.Contains x y d := by
  have hmem := current_mem hd
  unfold draw at hd
  rw [h] at hd
  dsimp only at hd
  rw [drawVertical_eq] at hd
  obtain ⟨p, hp, rfl⟩ := List.mem_map.mp hd
  obtain ⟨hlo, hhi⟩ := stacked_within hy hsep (fun c hc => (hsizes c hc).2) hp
  refine ⟨le_refl x, ?_, hlo, ?_⟩
  · unfold getWidth
    rw [h]
    exact add_le_add_right (size_le_largest Drawable.getWidth 0 hmem) _
  · unfold getHeight
    rw [h]
    dsimp only
    rw [addUp_eq, zero_add]
    exact hhi

theorem contains_none (h : l.expansionType = .none) {d : DrawCall} (hd : d ∈ l.draw x y) :
    l.Contains x y d := by
  unfold draw at hd
  rw [h] at hd
  obtain ⟨c, hc, rfl⟩ := List.mem_map.mp hd
  refine ⟨le_refl x, ?_, le_refl y, ?_⟩
  · unfold getWidth
    rw [h]
    exact add_le_add_right (size_le_largest Drawable.getWidth 0 hc) _
  · unfold getHeight
    rw [h]
    exact add_le_add_right (size_le_largest Drawable.getHeight 0 hc) _

theorem pairwise_before (hsizes : l.SizesNonneg) (hsep : 1 ≤ l.seperation) (hx : 0 ≤ x)
    (hy : 0 ≤ y) : (l.draw x y).Pairwise (Before l.expansionType) := by
  unfold draw
  cases l.expansionType with
  | horizontal =>
      dsimp only
      rw [drawHorizontal_eq, List.pairwise_map]
      exact stacked_ordered hx hsep fun c hc => (hsizes c hc).1
  | vertical =>
      dsimp only
      rw [drawVertical_eq, List.pairwise_map]
      exact stacked_ordered hy hsep fun c hc => (hsizes c hc).2
  | none => exact List.pairwise_of_forall fun _ _ => trivial

/--
**A list draws inside the size it reports**, every child once and in order, and with
space in between no two children overlap.
-/
theorem draw_contained (l : DrawableList) (x y : Int) (hx : 0 ≤ x) (hy : 0 ≤ y)
    (hsep : 0 ≤ l.seperation) (hsizes : l.SizesNonneg) :
    (l.draw x y).map DrawCall.current = l.thingsToDraw ∧
      (∀ d ∈ l.draw x y, l.Contains x y d) ∧
      (1 ≤ l.seperation → (l.draw x y).Pairwise (Before l.expansionType)) := by
  refine ⟨draw_current l x y, ?_, fun h1 => pairwise_before hsizes h1 hx hy⟩
  intro d hd
  cases h : l.expansionType with
  | horizontal => exact contains_horizontal hsizes hsep h hx hd
  | vertical => exact contains_vertical hsizes hsep h hy hd
  | none => exact contains_none h hd

/-- A text, a box and a button, with fractions of pixels. -/
def dataList : DrawableList :=
  ⟨[⟨.topLeft, 100, 25 / 2⟩, ⟨.topLeft, 301 / 3, 20⟩, ⟨.topLeft, 100, 51 / 4⟩], .vertical, 10⟩

theorem draw_contained_dataList :
    (dataList.draw 0 108).map DrawCall.current = dataList.thingsToDraw ∧
      (∀ d ∈ dataList.draw 0 108, dataList.Contains 0 108 d) ∧
      (1 ≤ dataList.seperation →
        (dataList.draw 0 108).Pairwise (Before dataList.expansionType)) := by
  have hsizes : dataList.SizesNonneg := by
    unfold SizesNonneg dataList
    decide +kernel
  exact draw_contained dataList 0 108 (by decide) (by decide) (by decide) hsizes

end DrawableList

end ScoutComputer
