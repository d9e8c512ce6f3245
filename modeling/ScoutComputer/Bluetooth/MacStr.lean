import ScoutComputer.Lib.Endian
import ScoutComputer.Machine

/-!
# The text of the connection QR code

The address of this computer, as `getMacStr` writes it, and the port it listens on.
-/

namespace ScoutComputer

/-- A `BLUETOOTH_ADDRESS`: a number of 48 bits, and its bytes. -/
abbrev BluetoothAddress : Type := BitVec 48

namespace BluetoothAddress

/-- `addr.rgBytes[i]`. The first byte is the least significant one. -/
def rgBytes (addr : BluetoothAddress) (i : Nat) : Byte := Endian.byteAt addr.toNat i

end BluetoothAddress

namespace Bluetooth

/-- `addrBuilder << n`, after `addrBuilder << std::hex`. -/
def hex (n : Nat) : List Byte := (Nat.toDigits 16 n).map fun c => UInt8.ofNat c.toNat

/-- `std::toupper`. -/
def toupper (c : Byte) : Byte := if 97 ≤ c ∧ c ≤ 122 then c - 32 else c

/-- A byte up to `0x0f` gets a zero in front of its only digit. -/
def addByte (addrBuilder : List Byte) (b : Byte) : List Byte :=
  (if b ≤ 0x0f then addrBuilder ++ hex 0 else addrBuilder) ++ hex b.toNat

/-- The loop, with `i` going down to 1. -/
def addBytes (addr : BluetoothAddress) : Nat → List Byte → List Byte
  | 0, addrBuilder => addrBuilder
  | i + 1, addrBuilder =>
      addBytes addr i (addByte addrBuilder (addr.rgBytes (i + 1)) ++ bytes ":")

def getMacStr (addr : BluetoothAddress) : List Byte :=
  (addByte (addBytes addr 5 []) (addr.rgBytes 0)).map toupper

/-- The port is kept as an `unsigned int` and returned as an `int`. -/
def getLocalPort (port : UInt32) : Int := toInt32 port.toNat

/-- What `main` makes a QR code of. -/
def qrText (localAddr : BluetoothAddress) (port : UInt32) : List Byte :=
  getMacStr localAddr ++ bytes ";" ++ decimal (getLocalPort port)

end Bluetooth

end ScoutComputer
