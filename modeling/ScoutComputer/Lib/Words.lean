import Mathlib.Tactic.Common

/-!
# Machine words under arithmetic shifts and odd multiplications

Xoring a word with its own arithmetic shift identifies each word with its complement,
and nothing else. Multiplication by an odd constant is a bijection, and turns a pair of
complements into a pair with a fixed sum. A sum is made of the bits in which two words
differ and of carries, which come from the others.
-/

namespace Words

variable {w : Nat}

/-- `x ^= x >> k` on a signed word. -/
def shiftMix (k : Nat) (x : BitVec w) : BitVec w := x ^^^ x.sshiftRight k

/-- A word that an arithmetic shift leaves alone has all its bits equal to the sign. -/
theorem getLsbD_of_sshiftRight_eq {k : Nat} (hk : 0 < k) {z : BitVec w}
    (h : z.sshiftRight k = z) (i : Nat) (hi : i < w) : z.getLsbD i = z.msb := by
  have hbit := congrArg (fun y : BitVec w => y.getLsbD i) h
  simp only [BitVec.getLsbD_sshiftRight, Nat.not_le.mpr hi, decide_false, Bool.not_false,
    Bool.true_and] at hbit
  by_cases hs : k + i < w
  · rw [if_pos hs] at hbit
    rw [← hbit]
    exact getLsbD_of_sshiftRight_eq hk h (k + i) hs
  · rw [if_neg hs] at hbit
    exact hbit.symm
termination_by w - i

theorem sshiftRight_eq_self_iff {k : Nat} (hk : 0 < k) {z : BitVec w} :
    z.sshiftRight k = z ↔ z = 0#w ∨ z = BitVec.allOnes w := by
  constructor
  · intro h
    have hbits := getLsbD_of_sshiftRight_eq hk h
    cases hm : z.msb with
    | false =>
        refine Or.inl (BitVec.eq_of_getLsbD_eq fun i hi => ?_)
        rw [hbits i hi, hm, BitVec.getLsbD_zero]
    | true =>
        refine Or.inr (BitVec.eq_of_getLsbD_eq fun i hi => ?_)
        rw [hbits i hi, hm, BitVec.getLsbD_allOnes, decide_eq_true hi]
  · intro h
    rcases h with h | h
    · rw [h, BitVec.zero_sshiftRight]
    · rw [h, ← BitVec.not_zero, ← BitVec.not_sshiftRight, BitVec.zero_sshiftRight]

theorem xor_swap {a b c d : BitVec w} (h : a ^^^ b = c ^^^ d) : b ^^^ d = a ^^^ c := by
  calc b ^^^ d = a ^^^ (a ^^^ b) ^^^ d := by rw [← BitVec.xor_assoc a, BitVec.xor_self, BitVec.zero_xor]
    _ = a ^^^ (c ^^^ d) ^^^ d := by rw [h]
    _ = a ^^^ c := by
      rw [BitVec.xor_assoc a, BitVec.xor_assoc c, BitVec.xor_self, BitVec.xor_zero]

theorem xor_eq_allOnes {x y : BitVec w} : x ^^^ y = BitVec.allOnes w ↔ x = ~~~y := by
  constructor
  · intro h
    have hx := xor_swap (h.trans (BitVec.xor_zero (x := BitVec.allOnes w)).symm)
    rw [BitVec.xor_zero, BitVec.xor_allOnes] at hx
    rw [hx, BitVec.not_not]
  · intro h
    rw [h, BitVec.not_def, BitVec.xor_assoc, BitVec.xor_self, BitVec.xor_zero]

/-- **The mix merges a word with its complement**, and no other words. -/
theorem shiftMix_inj_iff {k : Nat} (hk : 0 < k) {x y : BitVec w} :
    shiftMix k x = shiftMix k y ↔ x = y ∨ x = ~~~y := by
  unfold shiftMix
  rw [← xor_eq_allOnes, ← BitVec.xor_eq_zero_iff (x := x), ← sshiftRight_eq_self_iff hk,
    BitVec.sshiftRight_xor_distrib]
  refine ⟨xor_swap, fun h => ?_⟩
  rw [BitVec.xor_comm x, BitVec.xor_comm y]
  exact (xor_swap h).symm

theorem shiftMix_xor (k : Nat) (x y : BitVec w) :
    shiftMix k (x ^^^ y) = shiftMix k x ^^^ shiftMix k y := by
  unfold shiftMix
  rw [BitVec.sshiftRight_xor_distrib]
  ac_rfl

/-- The lowest bit of a mix depends on the bits up to the shift. -/
theorem getLsbD_zero_shiftMix {k : Nat} (hk : k < w) {x y : BitVec w}
    (h : x.setWidth (k + 1) = y.setWidth (k + 1)) :
    (shiftMix k x).getLsbD 0 = (shiftMix k y).getLsbD 0 := by
  have hbit : ∀ i, i < k + 1 → x.getLsbD i = y.getLsbD i := by
    intro i hi
    have heq := congrArg (fun z => z.getLsbD i) h
    simpa [hi] using heq
  unfold shiftMix
  rw [BitVec.getLsbD_xor, BitVec.getLsbD_xor, BitVec.getLsbD_sshiftRight,
    BitVec.getLsbD_sshiftRight, hbit 0 (Nat.succ_pos k), Nat.add_zero, if_pos hk, if_pos hk,
    hbit k (Nat.lt_succ_self k)]

/-! ## Sums -/

theorem nat_add_eq_xor_add_and (x y : Nat) : x + y = (x ^^^ y) + 2 * (x &&& y) := by
  induction x using Nat.strongRecOn generalizing y with
  | ind x ih =>
      rcases Nat.eq_zero_or_pos x with rfl | hx
      · simp
      · have hhalf := ih (x / 2) (Nat.div_lt_self hx (by decide)) (y / 2)
        rw [← Nat.xor_div_two, ← Nat.and_div_two] at hhalf
        have hxor : (x ^^^ y) % 2 = 1 ↔ ¬ (x % 2 = 1 ↔ y % 2 = 1) := Nat.xor_mod_two_eq_one
        have hand : (x &&& y) % 2 = 1 ↔ x % 2 = 1 ∧ y % 2 = 1 := Nat.and_mod_two_eq_one
        omega

/-- A sum by its bits and its carries. -/
theorem add_eq_xor_add_and (x y : BitVec w) : x + y = (x ^^^ y) + (x &&& y) <<< 1 := by
  refine BitVec.eq_of_toNat_eq ?_
  rw [BitVec.toNat_add, BitVec.toNat_add, BitVec.toNat_shiftLeft, BitVec.toNat_xor,
    BitVec.toNat_and, nat_add_eq_xor_add_and, Nat.shiftLeft_eq, Nat.add_mod_mod, Nat.pow_one,
    Nat.mul_comm 2]

/-- No carry comes from a bit in which the two words differ, and none arrives at the lowest. -/
theorem carries_disjoint (x y : BitVec w) :
    (x + y - (x ^^^ y)) &&& ((x ^^^ y) <<< 1 ||| 1#w) = 0#w := by
  have h : x + y - (x ^^^ y) = (x &&& y) <<< 1 := by
    rw [add_eq_xor_add_and, BitVec.add_comm, BitVec.add_sub_cancel]
  rw [h]
  refine BitVec.eq_of_getLsbD_eq fun i hi => ?_
  simp only [BitVec.getLsbD_and, BitVec.getLsbD_or, BitVec.getLsbD_shiftLeft, BitVec.getLsbD_xor,
    BitVec.getLsbD_zero, BitVec.getLsbD_one]
  cases i with
  | zero => simp
  | succ i => cases x.getLsbD i <;> cases y.getLsbD i <;> simp_all

/-- Words with the same lowest bit have an even sum. -/
theorem add_ne_of_odd {x y s : BitVec w} (h : x.getLsbD 0 = y.getLsbD 0)
    (hs : s.getLsbD 0 = true) : x + y ≠ s := by
  rintro rfl
  have hpos : 0 < w := BitVec.lt_of_getLsbD hs
  have heven : (x + y).getLsbD 0 = (x.getLsbD 0 ^^ y.getLsbD 0) := by
    simp [BitVec.getLsbD_add hpos]
  rw [heven, h, Bool.xor_self] at hs
  exact Bool.noConfusion hs

section
variable {u v : BitVec w}

theorem mul_left_inj_of_inv (h : u * v = 1#w) {a b : BitVec w} : a * u = b * u ↔ a = b := by
  refine ⟨fun hab => ?_, fun hab => by rw [hab]⟩
  calc a = a * u * v := by rw [BitVec.mul_assoc, h, BitVec.mul_one]
    _ = b * u * v := by rw [hab]
    _ = b := by rw [BitVec.mul_assoc, h, BitVec.mul_one]

/-- Two products with an odd constant are complements when the factors have a fixed sum. -/
theorem mul_eq_not_mul_iff (h : u * v = 1#w) {a b : BitVec w} :
    a * u = ~~~(b * u) ↔ a + b = -v := by
  have hnot : a * u = ~~~(b * u) ↔ (a + b) * u = -v * u := by
    rw [BitVec.not_eq_neg_add]
    grind
  rw [hnot, mul_left_inj_of_inv h]

end

end Words
