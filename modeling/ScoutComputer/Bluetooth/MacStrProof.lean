import ScoutComputer.Bluetooth.MacStr
import ScoutComputer.Data.Decimal
import ScoutComputer.Lib.HexPairs
import ScoutComputer.Lib.Separated

/-!
# What a tablet reads in the QR code

Every byte of the address becomes two upper-case digits, the most significant byte first.
No digit is a colon or a semicolon, so a reader that splits the text there gets back the
address and the port.
-/

namespace ScoutComputer

open HexPairs

namespace Bluetooth

/-! ## Writing -/

/-- The digits of the bytes `n - 1` to 0. -/
def groups (addr : BluetoothAddress) (n : Nat) : List (List Byte) :=
  (List.range n).reverse.map fun i => hexPair (addr.rgBytes i)

theorem groups_succ (addr : BluetoothAddress) (n : Nat) :
    groups addr (n + 1) = hexPair (addr.rgBytes n) :: groups addr n := by
  unfold groups
  rw [List.range_succ, List.reverse_append]
  rfl

theorem toupper_digitChar :
    ∀ d < 16, toupper (UInt8.ofNat (Nat.digitChar d).toNat) = hexDigit d := by
  decide

/-- Padded and in upper case, a byte is two digits. -/
theorem map_toupper_addByte (s : List Byte) (b : Byte) :
    (addByte s b).map toupper = s.map toupper ++ hexPair b := by
  have hzero : (hex 0).map toupper = [hexDigit 0] := by decide
  unfold addByte hexPair
  rw [List.map_append]
  by_cases hb : b ≤ 0x0f
  · have hlt : b.toNat < 16 := Nat.lt_succ_of_le (UInt8.le_iff_toNat_le.mp hb)
    have hdigit : (hex b.toNat).map toupper = [hexDigit b.toNat] := by
      unfold hex
      rw [Nat.toDigits_of_lt_base hlt, List.map_singleton, List.map_singleton,
        toupper_digitChar _ hlt]
    rw [if_pos hb, List.map_append, hzero, hdigit, Nat.div_eq_of_lt hlt, Nat.mod_eq_of_lt hlt,
      List.append_assoc]
    rfl
  · have hle : 16 ≤ b.toNat := by
      have : ¬b.toNat ≤ 15 := fun h => hb (UInt8.le_iff_toNat_le.mpr h)
      omega
    have hdigits : (hex b.toNat).map toupper =
        [hexDigit (b.toNat / 16), hexDigit (b.toNat % 16)] := by
      unfold hex
      rw [Nat.toDigits_of_base_le (by decide) hle, Nat.toDigits_of_lt_base (high_lt b),
        List.map_map]
      simp only [List.map_append, List.map_singleton, Function.comp_apply,
        toupper_digitChar _ (high_lt b), toupper_digitChar _ (low_lt b)]
      rfl
    rw [if_neg hb, hdigits]

/-- The bytes from `n` down to 0, with the last one outside the loop. -/
theorem map_toupper_addBytes (addr : BluetoothAddress) (n : Nat) (s : List Byte) :
    (addByte (addBytes addr n s) (addr.rgBytes 0)).map toupper =
      s.map toupper ++ [58].intercalate (groups addr (n + 1)) := by
  induction n generalizing s with
  | zero =>
      rw [groups_succ]
      exact map_toupper_addByte s (addr.rgBytes 0)
  | succ n ih =>
      have hne : groups addr (n + 1) ≠ [] := by
        rw [groups_succ]
        exact List.cons_ne_nil _ _
      have hcolon : (bytes ":").map toupper = [58] := by decide
      rw [addBytes, ih, List.map_append, map_toupper_addByte, hcolon, groups_succ addr (n + 1),
        List.intercalate_cons_of_ne_nil hne]
      simp only [List.append_assoc]

theorem getMacStr_eq (addr : BluetoothAddress) :
    getMacStr addr = [58].intercalate (groups addr 6) :=
  map_toupper_addBytes addr 5 []

theorem getLocalPort_eq {port : UInt32} (h : port.toNat < 2147483648) :
    getLocalPort port = port.toNat := by
  unfold getLocalPort toInt32
  exact Int.bmod_eq_of_le (by omega) (by omega)

theorem qrText_eq (addr : BluetoothAddress) {port : UInt32} (h : port.toNat < 2147483648) :
    qrText addr port = [58].intercalate (groups addr 6) ++ 59 :: digits port.toNat := by
  unfold qrText
  rw [getMacStr_eq, getLocalPort_eq h, decimal_eq, if_pos (Int.natCast_nonneg _), Int.toNat_natCast,
    List.append_assoc]
  rfl

/-! ## Reading -/

/-- Six pairs of digits between colons. -/
def readMac (text : List Byte) : Option BluetoothAddress := do
  let bs ← (text.splitOn 58).mapM pairValue
  if bs.length = 6 then some (BitVec.ofNat 48 (Endian.leNat bs.reverse)) else none

/-- Digits, and at least one. -/
def readPort (text : List Byte) : Option UInt32 :=
  if text ≠ [] ∧ text.all fun c => decide (48 ≤ c ∧ c ≤ 57) then
    some (UInt32.ofNat (digitsValue text))
  else none

/-- What stands on the two sides of the only semicolon. -/
def readQrText (text : List Byte) : Option (BluetoothAddress × UInt32) :=
  match text.splitOn 59 with
  | [mac, port] => do
      let addr ← readMac mac
      let port ← readPort port
      pure (addr, port)
  | _ => none

theorem notMem_groups {addr : BluetoothAddress} {n : Nat} {g : List Byte} (hg : g ∈ groups addr n)
    {c : Byte} (hc : ¬IsHexDigit c) : c ∉ g := by
  obtain ⟨i, _, rfl⟩ := List.mem_map.mp hg
  exact fun h => hc (isHexDigit_of_mem_hexPair h)

theorem readMac_getMacStr (addr : BluetoothAddress) : readMac (getMacStr addr) = some addr := by
  have hsplit : (getMacStr addr).splitOn 58 = groups addr 6 := by
    rw [getMacStr_eq]
    refine List.splitOn_intercalate 58 (fun g hg => notMem_groups hg ?_) ?_
    · unfold IsHexDigit
      decide
    · rw [groups_succ]
      exact List.cons_ne_nil _ _
  have hpairs : (groups addr 6).mapM pairValue =
      some ((List.range 6).reverse.map addr.rgBytes) := by
    rw [← mapM_pairValue, List.map_map]
    rfl
  -- The six bytes hold the whole address.
  have hvalue : Endian.leNat ((List.range 6).reverse.map addr.rgBytes).reverse = addr.toNat := by
    rw [List.map_reverse, List.reverse_reverse, List.range_eq_range']
    have hlt : addr.toNat < 256 ^ 6 := addr.isLt
    have hbytes := Endian.leNat_range' addr.toNat 0 6
    rw [Nat.pow_zero, Nat.div_one, Nat.mod_eq_of_lt hlt] at hbytes
    exact hbytes
  have hlen : ((List.range 6).reverse.map addr.rgBytes).length = 6 := rfl
  unfold readMac
  rw [hsplit, hpairs, Option.bind_eq_bind, Option.bind_some, if_pos hlen, hvalue,
    BitVec.ofNat_toNat, BitVec.setWidth_eq]

theorem readPort_digits (port : UInt32) : readPort (digits port.toNat) = some port := by
  have hall : (digits port.toNat).all (fun c => decide (48 ≤ c ∧ c ≤ 57)) = true :=
    List.all_eq_true.mpr fun c hc => decide_eq_true (digits_range hc)
  unfold readPort
  rw [if_pos ⟨digits_ne_nil _, hall⟩, digitsValue_digits, UInt32.ofNat_toNat]

/-- The only semicolon is the one behind the address. -/
theorem splitOn_qrText (addr : BluetoothAddress) {port : UInt32} (h : port.toNat < 2147483648) :
    (qrText addr port).splitOn 59 = [getMacStr addr, digits port.toNat] := by
  have hmac : 59 ∉ getMacStr addr := by
    rw [getMacStr_eq]
    intro hc
    rcases Separated.eq_or_mem_of_mem_intercalate hc with hc | ⟨g, hg, hc⟩
    · exact absurd hc (by decide)
    · refine notMem_groups hg ?_ hc
      unfold IsHexDigit
      decide
  have hport : 59 ∉ digits port.toNat := by
    intro hc
    exact absurd (digits_range hc).2 (by decide)
  rw [qrText_eq addr h, ← getMacStr_eq, List.splitOn_append_cons_self_of_not_mem hmac,
    List.splitOn_eq_singleton hport]

theorem readQrText_qrText (addr : BluetoothAddress) {port : UInt32} (h : port.toNat < 2147483648) :
    readQrText (qrText addr port) = some (addr, port) := by
  unfold readQrText
  rw [splitOn_qrText addr h]
  dsimp only
  rw [readMac_getMacStr, readPort_digits]
  rfl

/-- Six groups of two upper-case digits, from the most significant byte down, and the port in
decimal. **They can be read back**, so no other address or port has the same text. -/
theorem qrText_identifies (addr : BluetoothAddress) (port : UInt32)
    (h : port.toNat < 2147483648) :
    qrText addr port = [58].intercalate (groups addr 6) ++ 59 :: digits port.toNat ∧
    ((groups addr 6).length = 6 ∧ ∀ g ∈ groups addr 6, g.length = 2 ∧ ∀ c ∈ g, IsHexDigit c) ∧
    readQrText (qrText addr port) = some (addr, port) ∧
    ∀ (addr' : BluetoothAddress) (port' : UInt32), port'.toNat < 2147483648 →
      qrText addr' port' = qrText addr port → addr' = addr ∧ port' = port := by
  refine ⟨qrText_eq addr h, ⟨rfl, ?_⟩, readQrText_qrText addr h, ?_⟩
  · intro g hg
    obtain ⟨i, _, rfl⟩ := List.mem_map.mp hg
    exact ⟨rfl, fun c hc => isHexDigit_of_mem_hexPair hc⟩
  · intro addr' port' h' heq
    have hread := readQrText_qrText addr' h'
    rw [heq, readQrText_qrText addr h] at hread
    have hpair := Option.some.inj hread
    exact ⟨(congrArg Prod.fst hpair).symm, (congrArg Prod.snd hpair).symm⟩

/-- An address with small bytes in it. -/
theorem qrText_identifies_smallBytes :
    qrText 0xB9BB0A00FF07#48 6 = bytes "B9:BB:0A:00:FF:07;6" ∧
    readQrText (qrText 0xB9BB0A00FF07#48 6) = some (0xB9BB0A00FF07#48, 6) :=
  ⟨by decide, (qrText_identifies 0xB9BB0A00FF07#48 6 (by decide)).2.2.1⟩

end Bluetooth

end ScoutComputer
