import Mathlib.Data.Nat.Digits.Defs
import ScoutComputer.Machine

/-!
# Decimal numbers

What `std::to_string` writes: digits, behind a minus sign if the number is negative.
-/

namespace ScoutComputer

/-- The digits of a natural number. -/
def digits (n : Nat) : List Byte := (Nat.toDigits 10 n).map fun c => UInt8.ofNat c.toNat

theorem decimal_eq (n : Int) :
    decimal n = if 0 ≤ n then digits n.toNat else 45 :: digits (-n).toNat := by
  unfold decimal bytes digits
  rw [Int.toString_eq_repr, Int.repr_eq_if]
  split
  · rw [Nat.toList_repr]
  · rw [String.toList_append, Nat.toList_repr]
    rfl

theorem digits_range {n : Nat} {c : Byte} (h : c ∈ digits n) : 48 ≤ c ∧ c ≤ 57 := by
  obtain ⟨d, hd, hc⟩ := List.mem_map.mp h
  have hdigit := Nat.isDigit_of_mem_toDigits (by decide) (by decide) hd
  have hlo : 48 ≤ d.toNat := by
    simp only [Char.isDigit, Bool.and_eq_true, decide_eq_true_eq] at hdigit
    exact hdigit.1
  have hhi : d.toNat ≤ 57 := by
    simp only [Char.isDigit, Bool.and_eq_true, decide_eq_true_eq] at hdigit
    exact hdigit.2
  subst hc
  simp only [UInt8.le_iff_toNat_le, UInt8.toNat_ofNat', UInt8.toNat_ofNat]
  omega

theorem digits_ne_nil (n : Nat) : digits n ≠ [] := by
  unfold digits
  simp

theorem digits_length {n : Nat} (h : n < 10 ^ 10) : (digits n).length ≤ 10 := by
  unfold digits
  rw [List.length_map]
  exact (Nat.length_toDigits_le_iff (by decide) (by decide)).mpr h

theorem decimal_range {n : Int} {c : Byte} (h : c ∈ decimal n) : c = 45 ∨ 48 ≤ c ∧ c ≤ 57 := by
  rw [decimal_eq] at h
  split at h
  · exact Or.inr (digits_range h)
  · rcases List.mem_cons.mp h with h | h
    · exact Or.inl h
    · exact Or.inr (digits_range h)

theorem decimal_length (n : Int32) : (decimal n.toInt).length ≤ 11 := by
  have hlo := n.le_toInt
  have hhi := n.toInt_lt
  rw [decimal_eq]
  split
  · have := digits_length (n := n.toInt.toNat) (by omega)
    omega
  · have := digits_length (n := (-n.toInt).toNat) (by omega)
    rw [List.length_cons]
    omega

/-- The number some digits stand for. -/
def digitsValue (s : List Byte) : Nat := s.foldl (fun n c => 10 * n + (c.toNat - 48)) 0

theorem digitsValue_digits (n : Nat) : digitsValue (digits n) = n := by
  have hbyte : ∀ c ∈ Nat.toDigits 10 n, (UInt8.ofNat c.toNat).toNat = c.toNat := by
    intro c hc
    have hdigit := Nat.isDigit_of_mem_toDigits (by decide) (by decide) hc
    simp only [Char.isDigit, Bool.and_eq_true, decide_eq_true_eq] at hdigit
    have hhi : c.toNat ≤ 57 := hdigit.2
    rw [UInt8.toNat_ofNat']
    exact Nat.mod_eq_of_lt (by omega)
  have hfold : ∀ (cs : List Char) (m : Nat),
      (∀ c ∈ cs, (UInt8.ofNat c.toNat).toNat = c.toNat) →
      (cs.map fun c => UInt8.ofNat c.toNat).foldl (fun n c => 10 * n + (c.toNat - 48)) m =
        Nat.ofDigitChars 10 cs m := by
    intro cs
    induction cs with
    | nil =>
        intro m _
        rw [Nat.ofDigitChars_nil]
        rfl
    | cons c cs ih =>
        intro m hcs
        rw [List.map_cons, List.foldl_cons, ih _ fun d hd => hcs d (List.mem_cons_of_mem c hd),
          hcs c List.mem_cons_self, Nat.ofDigitChars_cons]
        rfl
  unfold digitsValue digits
  rw [hfold _ 0 hbyte, Nat.ofDigitChars_ten_toDigits]

theorem digits_inj {m n : Nat} (h : digits m = digits n) : m = n := by
  rw [← digitsValue_digits m, h, digitsValue_digits]

theorem decimal_inj {m n : Int} (h : decimal m = decimal n) : m = n := by
  have hsign : ∀ k l : Nat, digits k ≠ 45 :: digits l := by
    intro k l hkl
    have hmem : (45 : Byte) ∈ digits k := by
      rw [hkl]
      exact List.mem_cons_self
    exact absurd (digits_range hmem).1 (by decide)
  rw [decimal_eq, decimal_eq] at h
  by_cases hm : 0 ≤ m
  · by_cases hn : 0 ≤ n
    · rw [if_pos hm, if_pos hn] at h
      have := digits_inj h
      omega
    · rw [if_pos hm, if_neg hn] at h
      exact absurd h (hsign _ _)
  · by_cases hn : 0 ≤ n
    · rw [if_neg hm, if_pos hn] at h
      exact absurd h.symm (hsign _ _)
    · rw [if_neg hm, if_neg hn] at h
      have := digits_inj (List.cons.inj h).2
      omega

end ScoutComputer
