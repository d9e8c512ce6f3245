import Mathlib.Algebra.Order.Floor.Semiring
import Mathlib.Algebra.Order.Field.Basic
import ScoutComputer.Lib.Truncation

/-!
# Cells stretched over pixels

A row of `n` cells is drawn with a length of `s` pixels, which need not be whole: a pixel
shows the cell it falls into. The pixels of a cell are those between two rounded
multiples of `s / n`.
-/

namespace Resample

open Truncation

/-- The cell that pixel `j` shows. -/
def cell (n : Nat) (s : Rat) (j : Nat) : Int := trunc (n * (j / s))

/-- The first pixel that shows cell `k` or a later one. -/
def first (n : Nat) (s : Rat) (k : Nat) : Nat := ⌈(k * (s / n) : Rat)⌉₊

variable {n : Nat} {s : Rat}

theorem scaled_nonneg (hs : 0 < s) (j : Nat) : (0 : Rat) ≤ n * (j / s) :=
  mul_nonneg (Nat.cast_nonneg n) (div_nonneg (Nat.cast_nonneg j) hs.le)

theorem cell_mono (hs : 0 < s) {j j' : Nat} (h : j ≤ j') : cell n s j ≤ cell n s j' := by
  refine trunc_mono (scaled_nonneg hs j) (mul_le_mul_of_nonneg_left ?_ (Nat.cast_nonneg n))
  exact div_le_div_of_nonneg_right (Nat.cast_le.mpr h) hs.le

theorem le_cell_iff (hn : 0 < n) (hs : 0 < s) {j k : Nat} : k ≤ cell n s j ↔ first n s k ≤ j := by
  have hn' : (0 : Rat) < n := Nat.cast_pos.mpr hn
  unfold cell first
  rw [le_trunc_iff (scaled_nonneg hs j), Nat.ceil_le, Int.cast_natCast, ← mul_div_assoc,
    ← mul_div_assoc, le_div_iff₀ hs, div_le_iff₀ hn', mul_comm (j : Rat)]

/-- **The pixels of a cell.** -/
theorem cell_eq_iff (hn : 0 < n) (hs : 0 < s) {j k : Nat} :
    cell n s j = k ↔ first n s k ≤ j ∧ j < first n s (k + 1) := by
  have hle := le_cell_iff hn hs (j := j) (k := k)
  have hlt := le_cell_iff hn hs (j := j) (k := k + 1)
  push_cast at hlt
  omega

theorem first_zero : first n s 0 = 0 := by
  unfold first
  simp

/-- The pixels of a cell are as many as fit into its length, or one more. -/
theorem first_succ_bounds (k : Nat) (hs : 0 ≤ s) :
    first n s k + ⌊s / n⌋₊ ≤ first n s (k + 1) ∧
      first n s (k + 1) ≤ first n s k + ⌈s / n⌉₊ := by
  have hq : 0 ≤ s / n := div_nonneg hs (Nat.cast_nonneg n)
  have hsum : ((k + 1 : Nat) * (s / n) : Rat) = k * (s / n) + s / n := by
    push_cast
    ring
  unfold first
  rw [hsum]
  refine ⟨?_, Nat.ceil_add_le _ _⟩
  have hk : 0 ≤ k * (s / n) := mul_nonneg (Nat.cast_nonneg k) hq
  have hfloor : ((⌊s / n⌋₊ : Nat) : Rat) ≤ s / n := Nat.floor_le hq
  rw [← Nat.ceil_add_natCast hk]
  exact Nat.ceil_mono (by linarith)

/-- A cell that is longer than a pixel shows in one. -/
theorem first_lt_succ (hn : 0 < n) (hs : (n : Rat) < s) (k : Nat) :
    first n s k < first n s (k + 1) := by
  have hn' : (0 : Rat) < n := Nat.cast_pos.mpr hn
  have hone : (1 : Rat) < s / n := (one_lt_div hn').mpr hs
  have hfloor : 1 ≤ ⌊s / n⌋₊ := Nat.le_floor (by exact_mod_cast hone.le)
  have := (first_succ_bounds (n := n) k (hn'.le.trans hs.le)).1
  omega

theorem first_one : first n s 1 = ⌈s / n⌉₊ := by
  unfold first
  rw [Nat.cast_one, one_mul]

/-- The first cell shows in a pixel other than the first one. -/
theorem one_lt_first_succ (hn : 0 < n) (hs : (n : Rat) < s) (k : Nat) :
    1 < first n s (k + 1) := by
  have hn' : (0 : Rat) < n := Nat.cast_pos.mpr hn
  have hone : (1 : Rat) < s / n := (one_lt_div hn').mpr hs
  have hk : (1 : Rat) ≤ (k + 1 : Nat) := by exact_mod_cast Nat.succ_pos k
  unfold first
  rw [Nat.lt_ceil, Nat.cast_one]
  exact hone.trans_le (le_mul_of_one_le_left (zero_le_one.trans hone.le) hk)

theorem first_self (hn : 0 < n) : first n s n = ⌈s⌉₊ := by
  have hn' : (n : Rat) ≠ 0 := Nat.cast_ne_zero.mpr hn.ne'
  unfold first
  rw [mul_div_cancel₀ s hn']

theorem first_le (hn : 0 < n) (hs : 0 ≤ s) {k : Nat} (hk : k ≤ n) : first n s k ≤ ⌈s⌉₊ := by
  rw [← first_self hn]
  refine Nat.ceil_mono (mul_le_mul_of_nonneg_right (Nat.cast_le.mpr hk) ?_)
  exact div_nonneg hs (Nat.cast_nonneg n)

/-- As many numbers below `m` lie between `a` and `b` as the interval has room for. -/
theorem length_filter_between (m a b : Nat) (p : Nat → Bool)
    (hp : ∀ j, p j = true ↔ a ≤ j ∧ j < b) :
    ((List.range m).filter p).length = min b m - min a m := by
  induction m with
  | zero => simp
  | succ m ih =>
      rw [List.range_succ, List.filter_append, List.length_append, ih]
      by_cases hm : p m = true
      · have := (hp m).mp hm
        rw [List.filter_cons_of_pos hm]
        simp only [List.filter_nil, List.length_cons, List.length_nil]
        omega
      · have hnot : ¬ (a ≤ m ∧ m < b) := fun h => hm ((hp m).mpr h)
        rw [List.filter_cons_of_neg hm]
        simp only [List.filter_nil, List.length_nil]
        omega

end Resample
