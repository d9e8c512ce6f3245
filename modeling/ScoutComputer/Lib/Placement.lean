import Mathlib.Algebra.Order.BigOperators.Group.List
import ScoutComputer.Lib.Truncation

/-!
# Boxes on a line of pixels

Along one axis a box is placed by the edge it is aligned with, or behind the box before
it. Extents and sizes are rational, positions are whole, and each position is truncated
when it is computed.
-/

namespace Placement

open Truncation

/-! ## A box in a container -/

/-- The edge of its container a box keeps to, or the middle. -/
inductive Align where
  | start
  | center
  | stop

/-- How much of a length lies in front of the point that is aligned. -/
def share : Align → Rat → Rat
  | .start, _ => 0
  | .center, l => l / 2
  | .stop, l => l

/-- How far into the container the box begins. -/
def inset (a : Align) (extent size : Rat) : Rat := share a extent - share a size

/-- Within the container, up to less than one pixel. -/
def Within (origin extent p size : Rat) : Prop := origin - 1 < p ∧ p + size < origin + extent + 1

/-- At the edge or in the middle, up to less than one pixel. -/
def Anchored (a : Align) (origin extent p size : Rat) : Prop :=
  |p + share a size - (origin + share a extent)| < 1

variable {a : Align} {origin extent size : Rat}

theorem inset_nonneg (h : size ≤ extent) : 0 ≤ inset a extent size := by
  unfold inset
  cases a with
  | start => exact le_of_eq (sub_self 0).symm
  | center =>
      show 0 ≤ extent / 2 - size / 2
      linarith
  | stop => exact sub_nonneg.mpr h

theorem inset_le (h : size ≤ extent) : inset a extent size ≤ extent - size := by
  unfold inset
  cases a with
  | start =>
      show (0 : Rat) - 0 ≤ extent - size
      linarith
  | center =>
      show extent / 2 - size / 2 ≤ extent - size
      linarith
  | stop => exact le_refl _

/-- **A box that fits is placed in its container.** -/
theorem within_placed (h0 : 0 ≤ origin) (h : size ≤ extent) :
    Within origin extent (trunc (origin + inset a extent size)) size := by
  have hnonneg := inset_nonneg (a := a) h
  have hle := inset_le (a := a) h
  have hlo := lt_trunc_add_one (add_nonneg h0 hnonneg)
  have hhi := trunc_le (add_nonneg h0 hnonneg)
  exact ⟨by linarith, by linarith⟩

/-- **A box that fits is placed at its edge.** -/
theorem anchored_placed (h0 : 0 ≤ origin) (h : size ≤ extent) :
    Anchored a origin extent (trunc (origin + inset a extent size)) size := by
  have hnonneg := inset_nonneg (a := a) h
  have hlo := lt_trunc_add_one (add_nonneg h0 hnonneg)
  have hhi := trunc_le (add_nonneg h0 hnonneg)
  have heq : inset a extent size = share a extent - share a size := rfl
  unfold Anchored
  rw [abs_lt]
  exact ⟨by linarith, by linarith⟩

/-! ## Boxes one behind the other -/

section
variable {α : Type*} (length : α → Rat) (sep : Int)

/-- The boxes with their positions, from `x` on, with `sep` pixels in between. -/
def stacked : Int → List α → List (α × Int)
  | _, [] => []
  | x, b :: bs => (b, x) :: stacked (trunc ((x + sep : Int) + length b)) bs

/-- The length of all boxes and the space behind each. -/
def total (bs : List α) : Rat := (bs.map fun b => length b + sep).sum

variable {length} {sep} {x : Int} {bs : List α}

theorem stacked_map_fst : (stacked length sep x bs).map Prod.fst = bs := by
  induction bs generalizing x with
  | nil => rfl
  | cons b bs ih => rw [stacked, List.map_cons, ih]

theorem total_nonneg (hsep : 0 ≤ sep) (h : ∀ b ∈ bs, 0 ≤ length b) : 0 ≤ total length sep bs := by
  refine List.sum_nonneg ?_
  intro q hq
  obtain ⟨b, hb, rfl⟩ := List.mem_map.mp hq
  exact add_nonneg (h b hb) (Int.cast_nonneg hsep)

/-- The next position is behind the box, and the truncation takes less than a pixel of the space. -/
theorem next_bounds {b : α} (hx : 0 ≤ x) (hsep : 0 ≤ sep) (hb : 0 ≤ length b) :
    x ≤ trunc ((x + sep : Int) + length b) ∧
      (x + length b + sep - 1 : Rat) < trunc ((x + sep : Int) + length b) ∧
      (trunc ((x + sep : Int) + length b) : Rat) ≤ x + length b + sep := by
  have hnonneg : (0 : Rat) ≤ (x + sep : Int) + length b :=
    add_nonneg (Int.cast_nonneg (add_nonneg hx hsep)) hb
  have hlo := lt_trunc_add_one hnonneg
  have hhi := trunc_le hnonneg
  have hcast : ((x + sep : Int) : Rat) = x + sep := Int.cast_add x sep
  have hle : x ≤ trunc ((x + sep : Int) + length b) := by
    rw [le_trunc_iff hnonneg]
    have := (Int.cast_nonneg hsep : (0 : Rat) ≤ sep)
    linarith
  exact ⟨hle, by linarith, by linarith⟩

/-- **Every box lies between the first position and the total.** -/
theorem stacked_within (hx : 0 ≤ x) (hsep : 0 ≤ sep) (h : ∀ b ∈ bs, 0 ≤ length b)
    {p : α × Int} (hp : p ∈ stacked length sep x bs) :
    x ≤ p.2 ∧ (p.2 + length p.1 : Rat) ≤ x + total length sep bs := by
  induction bs generalizing x with
  | nil => exact absurd hp List.not_mem_nil
  | cons b bs ih =>
      have hb := h b List.mem_cons_self
      have hbs : ∀ c ∈ bs, 0 ≤ length c := fun c hc => h c (List.mem_cons_of_mem b hc)
      have htotal : total length sep (b :: bs) = length b + sep + total length sep bs :=
        List.sum_cons
      have hsep' : (0 : Rat) ≤ sep := Int.cast_nonneg hsep
      rw [htotal]
      rcases List.mem_cons.mp hp with rfl | hp
      · have := total_nonneg hsep hbs
        exact ⟨le_refl x, by linarith⟩
      · obtain ⟨hle, _, hnext⟩ := next_bounds hx hsep hb
        obtain ⟨hlo, hhi⟩ := ih (hx.trans hle) hbs hp
        exact ⟨hle.trans hlo, by linarith⟩

/-- **With space in between, every box ends before the next one begins.** -/
theorem stacked_ordered (hx : 0 ≤ x) (hsep : 1 ≤ sep) (h : ∀ b ∈ bs, 0 ≤ length b) :
    (stacked length sep x bs).Pairwise fun p q => (p.2 + length p.1 : Rat) < q.2 := by
  have hsep0 : 0 ≤ sep := by omega
  induction bs generalizing x with
  | nil => exact .nil
  | cons b bs ih =>
      have hb := h b List.mem_cons_self
      have hbs : ∀ c ∈ bs, 0 ≤ length c := fun c hc => h c (List.mem_cons_of_mem b hc)
      obtain ⟨hle, hgap, _⟩ := next_bounds hx hsep0 hb
      refine .cons ?_ (ih (hx.trans hle) hbs)
      intro q hq
      have hq' : (trunc ((x + sep : Int) + length b) : Rat) ≤ q.2 :=
        Int.cast_le.mpr (stacked_within (hx.trans hle) hsep0 hbs hq).1
      have hsep' : (1 : Rat) ≤ sep := by exact_mod_cast hsep
      show (x + length b : Rat) < q.2
      linarith

end

/-! ## Cells of one size -/

section
variable {origin size : Rat} {i j n : Nat} {p : Int}

/-- Where the i-th of some cells of one size begins. -/
def cellStart (origin size : Rat) (i : Nat) : Int := trunc (i * size + origin)

/-- The pixel is in the i-th cell. -/
def InCell (origin size : Rat) (i : Nat) (p : Int) : Prop :=
  cellStart origin size i ≤ p ∧ (p : Rat) < cellStart origin size i + size

theorem cellStart_bounds (h0 : 0 ≤ origin) (hsize : 0 ≤ size) (i : Nat) :
    (cellStart origin size i : Rat) ≤ i * size + origin ∧
      i * size + origin < cellStart origin size i + 1 := by
  have hnonneg : 0 ≤ i * size + origin := add_nonneg (mul_nonneg (Nat.cast_nonneg i) hsize) h0
  exact ⟨trunc_le hnonneg, lt_trunc_add_one hnonneg⟩

/-- **The cells leave no pixel out.** -/
theorem exists_inCell (h0 : 0 ≤ origin) (hsize : 0 ≤ size) (hlo : origin ≤ p)
    (hhi : (p : Rat) + 1 ≤ origin + n * size) : ∃ i < n, InCell origin size i p := by
  induction n with
  | zero =>
      rw [Nat.cast_zero, zero_mul] at hhi
      linarith
  | succ n ih =>
      by_cases hn : (p : Rat) + 1 ≤ origin + n * size
      · obtain ⟨i, hi, hcell⟩ := ih hn
        exact ⟨i, by omega, hcell⟩
      · obtain ⟨hle, hlt⟩ := cellStart_bounds h0 hsize n
        have hstart : (cellStart origin size n : Rat) < (p + 1 : Int) := by
          push_cast
          linarith
        have hend : (p : Rat) < cellStart origin size n + size := by
          push_cast at hhi
          linarith
        exact ⟨n, by omega, Int.lt_add_one_iff.mp (Int.cast_lt.mp hstart), hend⟩

/-- **Two cells share at most a pixel**, and only when they are neighbours. -/
theorem inCell_both (h0 : 0 ≤ origin) (hsize : 1 ≤ size) (hij : i < j)
    (hi : InCell origin size i p) (hj : InCell origin size j p) :
    j = i + 1 ∧ p = cellStart origin size j := by
  have hpos : 0 ≤ size := zero_le_one.trans hsize
  obtain ⟨hle, -⟩ := cellStart_bounds h0 hpos i
  obtain ⟨-, hlt⟩ := cellStart_bounds h0 hpos j
  have hp : (p : Rat) < (i + 1) * size + origin := by
    have := hi.2
    linarith
  have hstart : (cellStart origin size j : Rat) ≤ p := Int.cast_le.mpr hj.1
  have hnext : j = i + 1 := by
    by_contra hne
    have hfar : ((i + 2 : Nat) : Rat) ≤ j := Nat.cast_le.mpr (by omega)
    have hmul := mul_le_mul_of_nonneg_right hfar hpos
    push_cast at hmul
    linarith
  refine ⟨hnext, le_antisymm ?_ hj.1⟩
  have hup : (p : Rat) < (cellStart origin size j + 1 : Int) := by
    subst hnext
    push_cast at hlt ⊢
    linarith
  exact Int.lt_add_one_iff.mp (Int.cast_lt.mp hup)

end

end Placement
