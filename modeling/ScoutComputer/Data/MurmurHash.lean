import ScoutComputer.Machine

/-!
# `murmurHash`

The hash by which a tablet finds out whether its local database is stale, in 32-bit
arithmetic: a `char` is sign-extended, `>>` on an `int` is an arithmetic shift.
-/

namespace ScoutComputer

/-- `(int)data[i]`. -/
def charToInt (c : Byte) : BitVec 32 := c.toBitVec.signExtend 32

def multVal : BitVec 32 := 0x5bd1e995#32

def rotate : Nat := 24

/-- The block of four characters that starts an iteration, mixed. -/
def mixBlock (a b c d : Byte) : BitVec 32 :=
  let curr := charToInt a ||| charToInt b <<< 8 ||| charToInt c <<< 16 ||| charToInt d <<< 24
  let curr := curr * multVal
  let curr := curr ^^^ curr.sshiftRight rotate
  curr * multVal

/-- The loop over whole blocks: the hash so far, and the characters that are left. -/
def murmurLoop (hash : BitVec 32) : List Byte → BitVec 32 × List Byte
  | a :: b :: c :: d :: data => murmurLoop (hash * multVal ^^^ mixBlock a b c d) data
  | data => (hash, data)

/-- The `switch` on what is left, whose cases fall through. -/
def murmurTail (hash : BitVec 32) : List Byte → BitVec 32
  | [a, b, c] =>
      (hash ^^^ charToInt c <<< 16 ^^^ charToInt b <<< 8 ^^^ charToInt a) * multVal
  | [a, b] => (hash ^^^ charToInt b <<< 8 ^^^ charToInt a) * multVal
  | [a] => (hash ^^^ charToInt a) * multVal
  | _ => hash

/-- `murmurHash`. Only as many characters are looked at as fit in an `int`. -/
def murmurHash (data : List Byte) : BitVec 32 :=
  let size := toInt32 data.length
  let (hash, rest) := murmurLoop (1138#32 ^^^ BitVec.ofInt 32 size) (data.take size.toNat)
  let hash := murmurTail hash rest
  let hash := hash ^^^ hash.sshiftRight 13
  let hash := hash * multVal
  hash ^^^ hash.sshiftRight 15

example : murmurHash [1, 200, 3, 255, 7, 130, 9] = 0x0668ed62#32 := by decide +kernel

end ScoutComputer
