import Mathlib.Algebra.Group.Nat.Defs
import Mathlib.Data.List.TakeWhile
import Mathlib.Tactic.Common

/-!
# Bytes, C strings and machine integers
-/

namespace ScoutComputer

/-- A `char` of a buffer or of a string. -/
abbrev Byte : Type := UInt8

/-- The text of an ASCII literal. -/
def bytes (s : String) : List Byte := s.toList.map fun c => UInt8.ofNat c.toNat

/-- What a C function sees of a string passed to it by `c_str()`. -/
def cStr (s : List Byte) : List Byte := s.takeWhile (· ≠ 0)

theorem cStr_prefix (s : List Byte) : cStr s <+: s := List.takeWhile_prefix _

theorem cStr_eq_self {s : List Byte} (h : 0 ∉ s) : cStr s = s := by
  refine List.takeWhile_eq_self_iff.mpr ?_
  intro c hc
  have : c ≠ 0 := fun h0 => h (h0 ▸ hc)
  simpa using this

theorem notMem_cStr (s : List Byte) : 0 ∉ cStr s := by
  intro h
  have := List.mem_takeWhile_imp h
  simp at this

/-- `std::to_string` of an `int`. -/
def decimal (n : Int) : List Byte := bytes (toString n)

/-- The value kept when a number is assigned to an `int`. -/
def toInt32 (n : Int) : Int := Int.bmod n 4294967296

/-- The value kept when a number is passed where an `unsigned long` is expected. -/
def toULong (n : Int) : Nat := (n % 4294967296).toNat

/-- The value kept when a number is passed where a `size_t` is expected. -/
def toSizeT (n : Int) : Nat := (n % 18446744073709551616).toNat

end ScoutComputer
