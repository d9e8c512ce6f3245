import Mathlib.Data.Rat.Floor
import Mathlib.Tactic.Linarith

/-!
# Truncation of rational numbers

The conversion of a number to an integer that drops what is behind the point: down to the
next integer from above zero, up to it from below.
-/

namespace Truncation

/-- The integer part of a rational number, towards zero. -/
def trunc (q : Rat) : Int := q.num.tdiv q.den

theorem trunc_of_nonneg {q : Rat} (h : 0 ≤ q) : trunc q = ⌊q⌋ := by
  unfold trunc
  rw [Rat.floor_def', Int.tdiv_eq_ediv_of_nonneg (Rat.num_nonneg.mpr h)]

theorem trunc_neg (q : Rat) : trunc (-q) = -trunc q := by
  unfold trunc
  rw [Rat.num_neg_eq_neg_num, Rat.den_neg_eq_den, Int.neg_tdiv]

theorem trunc_of_nonpos {q : Rat} (h : q ≤ 0) : trunc q = ⌈q⌉ := by
  have hneg := trunc_of_nonneg (neg_nonneg.mpr h)
  rw [trunc_neg, Int.floor_neg] at hneg
  exact neg_inj.mp hneg

@[simp] theorem trunc_intCast (n : Int) : trunc (n : Rat) = n := by
  unfold trunc
  simp

@[simp] theorem trunc_natCast (n : Nat) : trunc (n : Rat) = n := trunc_intCast n

section
variable {q : Rat}

theorem trunc_le (h : 0 ≤ q) : (trunc q : Rat) ≤ q := by
  rw [trunc_of_nonneg h]
  exact Int.floor_le q

theorem lt_trunc_add_one (h : 0 ≤ q) : q < trunc q + 1 := by
  rw [trunc_of_nonneg h]
  exact Int.lt_floor_add_one q

theorem le_trunc_iff (h : 0 ≤ q) {n : Int} : n ≤ trunc q ↔ (n : Rat) ≤ q := by
  rw [trunc_of_nonneg h]
  exact Int.le_floor

end

theorem trunc_mono {p q : Rat} (hp : 0 ≤ p) (hpq : p ≤ q) : trunc p ≤ trunc q := by
  rw [le_trunc_iff (hp.trans hpq)]
  exact (trunc_le hp).trans hpq

/-- Numbers a whole distance apart are truncated alike only on the two sides of zero. -/
theorem trunc_add_eq_iff {q : Rat} {k : Nat} (hk : 0 < k) :
    trunc (q + k) = trunc q ↔ k = 1 ∧ -1 < q ∧ q < 0 := by
  have hk1 : (1 : Rat) ≤ k := by exact_mod_cast hk
  rcases le_or_gt 0 q with h0 | h0
  · rw [trunc_of_nonneg h0, trunc_of_nonneg (by linarith), Int.floor_add_natCast]
    constructor
    · intro h
      omega
    · intro h
      exact absurd h.2.2 (not_lt.mpr h0)
  · rw [trunc_of_nonpos h0.le]
    rcases le_or_gt (q + k) 0 with hneg | hpos
    · rw [trunc_of_nonpos hneg, Int.ceil_add_natCast]
      constructor
      · intro h
        omega
      · intro ⟨_, hlt, _⟩
        linarith
    · -- zero lies in between, so the two are rounded towards each other
      rw [trunc_of_nonneg hpos.le, Int.floor_add_natCast]
      constructor
      · intro h
        have hceil : ⌈q⌉ ≤ ⌊q⌋ + 1 := Int.ceil_le_floor_add_one q
        have hk : k = 1 := by omega
        subst hk
        rw [Nat.cast_one] at hpos
        exact ⟨rfl, by linarith, h0⟩
      · intro ⟨hk, hlt, _⟩
        have hfloor : ⌊q⌋ = -1 := by
          rw [Int.floor_eq_iff]
          push_cast
          exact ⟨hlt.le, by linarith⟩
        have hceil : ⌈q⌉ = 0 := by
          rw [Int.ceil_eq_iff]
          push_cast
          exact ⟨by linarith, h0.le⟩
        rw [hfloor, hceil, hk]
        rfl

end Truncation
