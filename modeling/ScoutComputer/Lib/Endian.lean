import Mathlib.Algebra.Ring.Int.Defs
import Mathlib.Algebra.Ring.Nat
import Mathlib.Tactic.Common

/-!
# Little-endian 32-bit words

The four bytes of a 32-bit two's complement integer, least significant first, and
the signed value four bytes stand for.
-/

namespace Endian

/-- Byte `i` of `n`, counted from the least significant. -/
def byteAt (n : Int) (i : Nat) : UInt8 := UInt8.ofNat (n / 256 ^ i % 256).toNat

/-- The four bytes of the low 32 bits of `n`. -/
def le32 (n : Int) : List UInt8 := [byteAt n 0, byteAt n 1, byteAt n 2, byteAt n 3]

/-- The unsigned value of a list of bytes, least significant first. -/
def leNat : List UInt8 → Nat
  | [] => 0
  | b :: bs => b.toNat + 256 * leNat bs

/-- The signed value of four bytes. -/
def ofLe32 (bs : List UInt8) : Int := Int.bmod (leNat bs) 4294967296

@[simp] theorem le32_length (n : Int) : (le32 n).length = 4 := rfl

theorem byteAt_toNat (n : Int) (i : Nat) : ((byteAt n i).toNat : Int) = n / 256 ^ i % 256 := by
  have h0 : 0 ≤ n / 256 ^ i % 256 := Int.emod_nonneg _ (by decide)
  have h1 : n / 256 ^ i % 256 < 256 := Int.emod_lt_of_pos _ (by decide)
  simp only [byteAt, UInt8.toNat_ofNat']
  omega

theorem leNat_le32 (n : Int) : (leNat (le32 n) : Int) = n % 4294967296 := by
  have h0 := byteAt_toNat n 0
  have h1 := byteAt_toNat n 1
  have h2 := byteAt_toNat n 2
  have h3 := byteAt_toNat n 3
  simp only [le32, leNat]
  omega

/-- The low `k` bytes of a number are read back as what they hold of it. -/
theorem leNat_range' (n s k : Nat) :
    leNat ((List.range' s k).map (byteAt n)) = n / 256 ^ s % 256 ^ k := by
  induction k generalizing s with
  | zero =>
      rw [Nat.pow_zero, Nat.mod_one]
      rfl
  | succ k ih =>
      have hbyte : (byteAt n s).toNat = n / 256 ^ s % 256 := by
        have := byteAt_toNat n s
        exact_mod_cast this
      rw [List.range'_succ, List.map_cons, leNat, ih, hbyte, Nat.pow_succ' (n := k),
        Nat.mod_mul, Nat.div_div_eq_div_mul, ← Nat.pow_succ]

/-- Writing a word and reading it back keeps its low 32 bits. -/
theorem ofLe32_le32 (n : Int) : ofLe32 (le32 n) = Int.bmod n 4294967296 := by
  unfold ofLe32
  rw [leNat_le32]
  exact Int.emod_bmod n 4294967296

/-- A non-negative word below `2 ^ 31` is read back as itself. -/
theorem ofLe32_le32_natCast {n : Nat} (h : n < 2147483648) : ofLe32 (le32 n) = n := by
  rw [ofLe32_le32]
  exact Int.bmod_eq_of_le (by omega) (by omega)

theorem le_ofLe32 (bs : List UInt8) : -2147483648 ≤ ofLe32 bs := by
  have := Int.le_bmod (x := leNat bs) (m := 4294967296) (by omega)
  unfold ofLe32
  omega

theorem ofLe32_lt (bs : List UInt8) : ofLe32 bs < 2147483648 := by
  have := Int.bmod_lt (x := leNat bs) (m := 4294967296) (by omega)
  unfold ofLe32
  omega

end Endian
