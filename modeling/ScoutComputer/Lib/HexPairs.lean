import Mathlib.Data.List.Basic
import Mathlib.Tactic.Common

/-!
# Bytes as pairs of hexadecimal digits

The two upper-case digits of a byte, and what a reader makes of two characters.
-/

namespace HexPairs

/-- The character of a digit, `0` to `9` and `A` to `F`. -/
def hexDigit (d : Nat) : UInt8 := UInt8.ofNat (if d < 10 then 48 + d else 55 + d)

/-- The upper-case hexadecimal digits. -/
def IsHexDigit (c : UInt8) : Prop := 48 ≤ c ∧ c ≤ 57 ∨ 65 ≤ c ∧ c ≤ 70

/-- The digit of a character. -/
def hexValue (c : UInt8) : Option Nat :=
  if 48 ≤ c ∧ c ≤ 57 then some (c.toNat - 48)
  else if 65 ≤ c ∧ c ≤ 70 then some (c.toNat - 55)
  else none

def hexPair (b : UInt8) : List UInt8 := [hexDigit (b.toNat / 16), hexDigit (b.toNat % 16)]

def pairValue : List UInt8 → Option UInt8
  | [c, d] => do
      let high ← hexValue c
      let low ← hexValue d
      pure (UInt8.ofNat (16 * high + low))
  | _ => none

theorem hexDigit_spec : ∀ d < 16, IsHexDigit (hexDigit d) ∧ hexValue (hexDigit d) = some d := by
  unfold IsHexDigit
  decide

theorem high_lt (b : UInt8) : b.toNat / 16 < 16 := by
  have := b.toNat_lt
  omega

theorem low_lt (b : UInt8) : b.toNat % 16 < 16 := Nat.mod_lt _ (by decide)

theorem isHexDigit_of_mem_hexPair {b c : UInt8} (h : c ∈ hexPair b) : IsHexDigit c := by
  rcases List.mem_cons.mp h with rfl | h
  · exact (hexDigit_spec _ (high_lt b)).1
  · rw [List.mem_singleton.mp h]
    exact (hexDigit_spec _ (low_lt b)).1

theorem pairValue_hexPair (b : UInt8) : pairValue (hexPair b) = some b := by
  have hb : 16 * (b.toNat / 16) + b.toNat % 16 = b.toNat := Nat.div_add_mod b.toNat 16
  unfold hexPair pairValue
  dsimp only
  rw [(hexDigit_spec _ (high_lt b)).2, (hexDigit_spec _ (low_lt b)).2]
  show some (UInt8.ofNat (16 * (b.toNat / 16) + b.toNat % 16)) = some b
  rw [hb, UInt8.ofNat_toNat]

/-- **A list of bytes is read back** from the pairs written for it. -/
theorem mapM_pairValue (bs : List UInt8) : (bs.map hexPair).mapM pairValue = some bs := by
  induction bs with
  | nil => rfl
  | cons b bs ih =>
      rw [List.map_cons, List.mapM_cons, pairValue_hexPair, ih]
      rfl

end HexPairs
