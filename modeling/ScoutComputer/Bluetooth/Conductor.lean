import ScoutComputer.Bluetooth.Transfer
import ScoutComputer.Data.Database
import ScoutComputer.Data.MurmurHash

/-!
# `TABTRANSACTION`, `BtTabObj` and `BluetoothConductor`

The record a tablet reuses for all its transactions, and the two functions of the
conductor that fill it and act on it. `ρ` is the type of pointers to tablet objects;
what a pointer resolves to is not this module's business.
-/

namespace ScoutComputer

open Interact Endian

/-- `bt::TRANSACTIONTYPE`, whose values are those of a `signed char`. -/
abbrev TransactionType : Type := Int8

def transSocketError : TransactionType := -128

def transSendLocalDb : TransactionType := -2

def transSendLocalDbHash : TransactionType := -1

def transCloseSocket : TransactionType := 0

def transRecvMatch : TransactionType := 1

def transRecvTabletInfo : TransactionType := 2

/-- `bt::SOCKETCALLTYPE`. -/
inductive SocketCallType where
  | default
  | deferred
  | asynchronous
  deriving DecidableEq

/-- What `std::async` does with a job. -/
inductive Launch where
  | async
  | deferred
  deriving DecidableEq

/-- The launches the policy of a tablet allows. -/
def SocketCallType.policy : SocketCallType → List Launch
  | default => [.async, .deferred]
  | deferred => [.deferred]
  | asynchronous => [.async]

/-! ## Transactions -/

/--
The shared state of a future. `this` and `success` are what the job captured: the
object it works on, and the transaction whose flag it writes. `owner` and `forCode`
are ghosts: the tablet and the code, counted from its first, the job was started for.
-/
structure SharedState (ρ : Type) where
  /-- An `async` job runs from the start, a `deferred` one from `get()` on. -/
  started : Bool
  this : ρ
  success : ρ
  prog : Job (Option (List Byte) × Bool)
  owner : Nat
  forCode : Nat

/-- `TABTRANSACTION`. -/
structure TabTransaction (ρ : Type) where
  parent : Option ρ
  transactionType : TransactionType
  data : Option (SharedState ρ)
  batmanTrans : Bool
  success : Bool
  writeTransaction : Bool

variable {ρ : Type}

/-- A transaction nothing was assigned to yet. -/
def TabTransaction.init : TabTransaction ρ where
  parent := none
  transactionType := 0
  data := none
  batmanTrans := false
  success := true
  writeTransaction := false

/-- Whether `wait_for` no longer reports a timeout. -/
def SharedState.isReady (s : SharedState ρ) : Bool := !s.started || s.prog.result?.isSome

/-- `isReady`. `none` is a call on a future without shared state. -/
def TabTransaction.isReady (trans : TabTransaction ρ) : Option Bool :=
  trans.data.map SharedState.isReady

/-- `BtTabObj`; `serial` and `codesRead` are ghosts. -/
structure BtTabObj (ρ : Type) where
  macStr : List Byte
  socket : Socket
  callType : SocketCallType
  currTrans : TabTransaction ρ
  tabScoutingName : List Byte
  transactionState : Bool
  /-- How many tablets were accepted before this one. -/
  serial : Nat
  /-- How many transaction codes the tablet has been asked for. -/
  codesRead : Nat

/-- The constructor. -/
def BtTabObj.ofSocket (serial : Nat) (socket : Socket) (addrStr : List Byte) : BtTabObj ρ where
  macStr := addrStr
  socket := socket
  callType := .default
  currTrans := .init
  tabScoutingName := addrStr
  transactionState := false
  serial := serial
  codesRead := 0

/-- Whether the job of a tablet is under way: destroying its future would wait for it. -/
def BtTabObj.jobRunning (t : BtTabObj ρ) : Bool :=
  match t.currTrans.data with
  | none => false
  | some s => s.started && s.prog.result?.isNone

/-! ## Reading a transaction code -/

def getTransactionType : Job TransactionType := do
  let (transRes, success) ← readAllSocketData .loc btExpectedDataInitial
  if success = false then return transSocketError
  else return ((transRes.getD []).headD 0).toInt8

/-- The calls of `readTransactionData`, and the transaction type it stores. -/
def readTransactionData : Job TransactionType := do
  let ready : Bool ← readyToRead
  if ready = false then return transCloseSocket
  else do
    let ready : Bool ← readyToWrite
    if ready = false then return transCloseSocket
    else getTransactionType

/-- The fields `readTransactionData` stores. -/
def TabTransaction.read (this : ρ) (c : TransactionType) (trans : TabTransaction ρ) :
    TabTransaction ρ :=
  { trans with
    parent := some this
    transactionType := c
    success := if c = transSocketError then false else trans.success
    writeTransaction := decide (c < 0 ∧ c ≠ transSocketError) }

/-! ## `BluetoothConductor` -/

/-- What the server reads of the files it sends. -/
abbrev Files : Type := String → List Byte

/-- The local database, as both write transactions put it together. -/
def localDb (readWholeFile : Files) : List Byte :=
  readWholeFile "resources/csv/scouterList.csv" ++ bytes "\n" ++
    readWholeFile "resources/csv/teamCompList.csv"

/-- What `internalWrite` is given for a code; nothing for a code without a case. -/
def writeData (readWholeFile : Files) (c : TransactionType) : Option (List Byte) :=
  if c = transSendLocalDb then some (localDb readWholeFile)
  else if c = transSendLocalDbHash then
    some (le32 (murmurHash (localDb readWholeFile)).toInt)
  else none

/-- `std::async(policy, …, std::ref(trans->success))` on the transaction at `self`. -/
def TabTransaction.launch (self : ρ) (launch : Launch) (owner forCode : Nat)
    (prog : Job (Option (List Byte) × Bool)) (trans : TabTransaction ρ) : TabTransaction ρ :=
  { trans with
    data := some
      { started := launch = .async
        this := trans.parent.getD self
        success := self
        prog, owner, forCode } }

/-- `handleWriteTransactions`. A code without a case leaves the transaction as it was. -/
def handleWriteTransactions (self : ρ) (launch : Launch) (readWholeFile : Files)
    (owner forCode : Nat) (trans : TabTransaction ρ) : TabTransaction ρ :=
  match writeData readWholeFile trans.transactionType with
  | none => trans
  | some data =>
      { trans with batmanTrans := false, writeTransaction := true }.launch self launch owner
        forCode (internalWrite data)

/-- The calls `initReadyTransaction` makes itself: the two ways to say goodbye. -/
def farewell (c : TransactionType) : Job Unit :=
  if c = transSocketError then do
    let _ ← sendNack
    closesocket
  else if c = transCloseSocket then closesocket
  else return ()

/--
The calls `handleReadyConnections` makes for one tablet, and the code it was served for;
`none` when it is passed over.
-/
def serveTablet (undergoingTransaction : Bool) : Job (Option TransactionType) := do
  let ready : Bool ← readyToRead
  if !ready || undergoingTransaction then return none
  else do
    let c ← readTransactionData
    farewell c
    return some c

/-- The fields `initReadyTransaction` stores. -/
def initReadyTransaction (self : ρ) (launch : Launch) (readWholeFile : Files)
    (owner forCode : Nat) (trans : TabTransaction ρ) : TabTransaction ρ :=
  if trans.transactionType = transSocketError ∨ trans.transactionType = transCloseSocket then
    { trans with success := false, batmanTrans := true, writeTransaction := false }
  else if trans.writeTransaction then
    handleWriteTransactions self launch readWholeFile owner forCode trans
  else
    { trans with success := true, batmanTrans := false, writeTransaction := false }.launch self
      launch owner forCode internalRead

/-- What can go wrong in `handleTransResult`. -/
inductive Fault where
  /-- `get()` on a future without shared state. -/
  | noState
  /-- `get()` has to wait for the job. -/
  | waiting
  /-- `value()` of an empty optional. -/
  | badOptionalAccess
  deriving DecidableEq

/-- What `handleTransResult` did. -/
structure Handled (ρ : Type) where
  trans : TabTransaction ρ
  /-- The statements it submitted. -/
  statements : List (List Byte)
  /-- The name it gave to `trans->parent`. -/
  name : Option (List Byte)

/-- `data.get()`: the result, and the transaction without its shared state. -/
def TabTransaction.get (trans : TabTransaction ρ) :
    Except Fault (Option (List Byte) × TabTransaction ρ) :=
  match trans.data with
  | none => .error .noState
  | some s =>
      match s.prog.result? with
      | none => .error .waiting
      | some r => .ok (r.1, { trans with data := none })

/-- Whether `handleTransResult` calls `get()`. -/
def TabTransaction.needsGet (trans : TabTransaction ρ) : Bool :=
  !trans.writeTransaction && (trans.transactionType = transRecvMatch ||
    trans.transactionType = transRecvTabletInfo)

/-- `handleTransResult`, over the parser `JsonParser` calls. -/
def handleTransResult (parse : List Byte → Option Json) (trans : TabTransaction ρ) :
    Except Fault (Handled ρ) :=
  if trans.writeTransaction then .ok ⟨trans, [], none⟩
  else if trans.transactionType = transRecvMatch then do
    let (readData, trans') ← trans.get
    match readData with
    | none => .error .badOptionalAccess
    | some readDataVec =>
        if trans.success then
          .ok ⟨trans', addMatchDatapoints (JsonParser.ofText parse readDataVec).parseMatch, none⟩
        else .ok ⟨trans', [], none⟩
  else if trans.transactionType = transRecvTabletInfo then do
    let (tabletScoutingInfo, trans') ← trans.get
    .ok ⟨trans', [], if trans.success then tabletScoutingInfo else none⟩
  else .ok ⟨trans, [], none⟩

end ScoutComputer
