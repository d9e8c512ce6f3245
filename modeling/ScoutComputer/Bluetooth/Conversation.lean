import ScoutComputer.Bluetooth.Server

/-!
# A tablet in conversation with the computer

The tablet keeps to the comments of `internalRead` and `internalWrite`, for any number of
transactions, and takes its time. Its bytes and those of the computer are in flight until
the other side takes them; each byte of the tablet carries a note of whether it was sent
as a transaction code.
-/

namespace ScoutComputer

open Interact Endian

/--
A transaction of a tablet. The size of a payload is a signed `int`, and a code is one the
computer has a transfer for.
-/
inductive Transaction where
  | read (code : Byte) (payload : List Byte) (hcode : 0 < code.toInt8)
      (hsize : payload.length < 2 ^ 31)
  | write (code : Byte) (hcode : code.toInt8 = transSendLocalDb ∨ code.toInt8 = transSendLocalDbHash)

def Transaction.code : Transaction → Byte
  | read code _ _ _ => code
  | write code _ => code

/-- All the tablet says in a transaction, after the code. -/
def Transaction.script : Transaction → List Byte
  | read _ payload _ _ => le32 payload.length ++ payload
  | write _ _ => ack ++ ack

/-- How many bytes of data follow the four bytes of a size. -/
def announced (heard : List Byte) : Nat := (ofLe32 (heard.take 4)).toNat

/--
What a tablet may have heard and said in a transaction. It says nothing before it has
heard what it waits for, and hears no more than that before it has said what is due.
-/
def InOrder (t : Transaction) (heard said : List Byte) : Prop :=
  heard = [] ∧ said <+: [t.code] ∨
    match t with
    | .read code payload _ _ =>
        -- the ACK of the code, the size, its ACK, the data
        said = [code] ∧ heard.length ≤ 3 ∨
        heard = ack ∧ [code] <+: said ∧ said <+: code :: le32 payload.length ∨
        said = code :: le32 payload.length ∧ ack <+: heard ∧ heard.length ≤ 6 ∨
        heard = ack ++ ack ∧ code :: le32 payload.length <+: said ∧
          said <+: code :: (le32 payload.length ++ payload)
    | .write code _ =>
        -- the size, an ACK, the data, an ACK
        said = [code] ∧ heard.length ≤ 4 ∨
        heard.length = 4 ∧ [code] <+: said ∧ said <+: code :: ack ∨
        said = code :: ack ∧ 4 ≤ heard.length ∧ heard.length ≤ 4 + announced heard ∨
        4 ≤ heard.length ∧ heard.length = 4 + announced heard ∧ code :: ack <+: said ∧
          said <+: code :: (ack ++ ack)

/-- The tablet has heard and said everything. -/
def Completes (t : Transaction) (heard said : List Byte) : Prop :=
  said = t.code :: t.script ∧
    match t with
    | .read _ _ _ _ => heard = ack ++ ack
    | .write _ _ => 4 ≤ heard.length ∧ heard.length = 4 + announced heard

instance : (t : Transaction) → (heard said : List Byte) → Decidable (InOrder t heard said)
  | .read _ _ _ _, _, _ => instDecidableOr
  | .write _ _, _, _ => instDecidableOr

instance : (t : Transaction) → (heard said : List Byte) → Decidable (Completes t heard said)
  | .read _ _ _ _, _, _ => instDecidableAnd
  | .write _ _, _, _ => instDecidableAnd

/-- The transaction a tablet is in. -/
structure Talk where
  transaction : Transaction
  heard : List Byte
  said : List Byte

namespace Bluetooth

variable {ρ : Type}

/-- The call a step makes on the socket of the tablet with serial number `n`. -/
def onSocket (A : Addressing ρ) (w : Bluetooth ρ) (n : Nat) : Act → Option (Event winsock)
  | .call e =>
      match w.pc with
      | .polling i _ => if w.serials[i]? = some n then some e else none
      | _ => none
  | .job i e =>
      match (w.connectedTablets[i]?).bind (·.currTrans.data) with
      | some s => if w.resolve A s.this = some n then some e else none
      | none => none
  | _ => none

end Bluetooth

/-- The computer and the tablet it accepts as number `n`. -/
structure Link (ρ : Type) where
  server : Bluetooth ρ
  talk : Option Talk
  /-- From the tablet to the computer. -/
  up : List (Byte × Bool)
  /-- From the computer to the tablet. -/
  down : List Byte
  /-- For each byte read as a transaction code, whether it was sent as one. -/
  codes : List Bool

def Link.init {ρ : Type} : Link ρ where
  server := .init
  talk := none
  up := []
  down := []
  codes := []

inductive LinkAct where
  | server (a : Bluetooth.Act)
  | begins (transaction : Transaction)
  | speaks (bs : List Byte)
  | hears (size : Nat)

/-- The tablet is in no transaction. -/
def Talk.Over : Option Talk → Prop
  | none => True
  | some k => Completes k.transaction k.heard k.said

instance (talk : Option Talk) : Decidable (Talk.Over talk) := by
  cases talk with
  | none => exact isTrue trivial
  | some k => exact inferInstanceAs (Decidable (Completes k.transaction k.heard k.said))

/-- The bytes the main thread takes from a socket, it takes as a transaction code. -/
def takesCode : Bluetooth.Act → Bool
  | .call _ => true
  | _ => false

def Link.step {ρ : Type} (A : Addressing ρ) (parse : List Byte → Option Json) (n : Nat)
    (l : Link ρ) : LinkAct → Option (Link ρ)
  | .server a =>
      match l.server.onSocket A n a with
      | none => (l.server.act A parse a).map fun w => { l with server := w }
      | some e =>
          let bs := l.up.take (taken e.1 e.2).length
          -- only what is in flight can be taken
          if bs.map Prod.fst = taken e.1 e.2 then
            (l.server.act A parse a).map fun w =>
              { l with
                server := w
                up := l.up.drop (taken e.1 e.2).length
                down := l.down ++ given e.1 e.2
                codes := if takesCode a then l.codes ++ bs.map Prod.snd else l.codes }
          else none
  | .begins t => if Talk.Over l.talk then some { l with talk := some ⟨t, [], []⟩ } else none
  | .speaks bs =>
      match l.talk with
      | none => none
      | some k =>
          if bs ≠ [] ∧ InOrder k.transaction k.heard (k.said ++ bs) then
            some { l with
              talk := some { k with said := k.said ++ bs }
              up := l.up ++ bs.map fun b => (b, k.said.isEmpty) }
          else none
  | .hears size =>
      match l.talk with
      | none => none
      | some k =>
          let bs := l.down.take size
          if bs ≠ [] ∧ InOrder k.transaction (k.heard ++ bs) k.said then
            some { l with
              talk := some { k with heard := k.heard ++ bs }
              down := l.down.drop size }
          else none

end ScoutComputer
