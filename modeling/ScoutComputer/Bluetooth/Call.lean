import Mathlib.Data.Rat.Defs
import ScoutComputer.Lib.Interact
import ScoutComputer.Machine

/-!
# The calls a tablet connection makes

Everything `BtTabObj` asks of Winsock, of the allocator and of the clock, as an
interface for `Interact.Prog`. `std::ref(trans->success)` is a call too: the
transfer jobs write their flag through a reference into the tablet object.
-/

namespace ScoutComputer

open Interact

/-- A Winsock socket handle. -/
abbrev Socket : Type := Nat

/-- `recv` returns bytes, none of them after a graceful close, or fails. -/
inductive RecvRes where
  | ret (bs : List Byte)
  | err (code : Int)
  deriving DecidableEq

/-- `send` returns how many bytes were accepted, or fails. -/
inductive SendRes where
  | ret (n : Nat)
  | err (code : Int)
  deriving DecidableEq

def wsaEWouldBlock : Int := 10035

def wsaEInProgress : Int := 10036

/-- `SOCKET_ERROR`, the return value of a failed Winsock call. -/
def socketError : Int := -1

/-- The calls. -/
inductive Call where
  /-- `malloc(size)`, where only the NULL check matters. -/
  | malloc (size : Nat)
  /-- `GetTime()`, noting the deadline the reading is compared with, if any. -/
  | getTime (timeoutTime : Option Rat)
  /-- `recv` of at most `len` bytes. -/
  | recv (len : Nat)
  /-- `send` offering `data`. -/
  | send (data : List Byte)
  /-- `select` for reading, or for writing. -/
  | select (write : Bool)
  /-- `closesocket`. -/
  | closesocket
  /-- A write through `std::ref(trans->success)`. -/
  | setSuccess (b : Bool)
  deriving DecidableEq

/-- What each call returns. -/
@[reducible] def Call.Res : Call → Type
  | malloc _ => Bool
  | getTime _ => Rat
  | recv _ => RecvRes
  | send _ => SendRes
  | select _ => Int
  | closesocket => Unit
  | setSuccess _ => Unit

/-- The interface of a tablet connection. -/
abbrev winsock : Interface where
  Call := Call
  Res := Call.Res

instance : DecidableEq winsock.Call := inferInstanceAs (DecidableEq Call)

instance (c : Call) : DecidableEq c.Res := by
  cases c <;> unfold Call.Res <;> infer_instance

/-- A piece of connection code. -/
abbrev Job (α : Type) : Type 1 := Prog winsock α

def malloc (size : Nat) : Job Bool := Prog.perform (I := winsock) (Call.malloc size)

/-- `GetTime()`, to be compared with `timeoutTime`. -/
def getTime (timeoutTime : Option Rat) : Job Rat :=
  Prog.perform (I := winsock) (Call.getTime timeoutTime)

def select (write : Bool) : Job Int := Prog.perform (I := winsock) (Call.select write)

def closesocket : Job Unit := Prog.perform (I := winsock) Call.closesocket

def setSuccess (b : Bool) : Job Unit := Prog.perform (I := winsock) (Call.setSuccess b)

/-- The calls of a run with their results. -/
abbrev Trace : Type := List (Event winsock)

/-- The bytes one call takes from the socket. -/
def taken : (c : Call) → c.Res → List Byte
  | .recv _, .ret bs => bs
  | _, _ => []

/-- The bytes the socket accepts in one call. -/
def given : (c : Call) → c.Res → List Byte
  | .send data, .ret n => data.take n
  | _, _ => []

/-- The bytes a run took from the socket. -/
def received (t : Trace) : List Byte := t.flatMap fun e => taken e.1 e.2

/-- The bytes the socket accepted from a run. -/
def sent (t : Trace) : List Byte := t.flatMap fun e => given e.1 e.2

end ScoutComputer
