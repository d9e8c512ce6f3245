import ScoutComputer.Bluetooth.Call
import ScoutComputer.Lib.Endian

/-!
# The communication routines of `BtTabObj`

Each routine is a `Job`. A `char*` that may be NULL is an `Option`, and the
`bool& success` out-parameter is returned next to the result; where the reference
is the transaction's own flag, every write is made a `setSuccess` call as well.
-/

namespace ScoutComputer

open Interact Endian

/-- `sizeof(char)`. -/
def btExpectedDataInitial : Nat := 1

/-- `sizeof(int)`. -/
def btExpectedDataReadsize : Nat := 4

def btTabAckSize : Nat := 3

def btTabNackSize : Nat := 3

/-- What a `bool& success` parameter refers to. -/
inductive SuccessRef where
  /-- A local variable of the caller. -/
  | loc
  /-- The flag of the transaction, captured by `std::ref`. -/
  | trans
  deriving DecidableEq

/-- Assign to a `bool& success`. -/
def SuccessRef.set : SuccessRef → Bool → Job Unit
  | .loc, _ => .ret ()
  | .trans, b => setSuccess b

/-! ## Primitives -/

/-- The loop of `readAllSocketData`: the bytes received so far and the deadline. -/
structure RecvLoop where
  dataRecvd : List Byte
  timeoutTime : Rat

/-- One iteration after its `recv`. `none` is a failing exit. -/
def recvIteration (sizeExpected : Nat) (s : RecvLoop) (r : RecvRes) :
    Job (RecvLoop ⊕ Option (List Byte)) := do
  let timeoutTime : Rat ← match r with
    | .ret (_ :: _) => do
        let now : Rat ← getTime none
        pure (now + 10)
    | _ => pure s.timeoutTime
  let now : Rat ← getTime (some timeoutTime)
  if now > timeoutTime then
    return .inr none
  else match r with
    | .ret [] => return .inr none
    | .err currError =>
        if currError = wsaEWouldBlock ∨ currError = wsaEInProgress then
          return .inl ⟨s.dataRecvd, timeoutTime⟩
        else
          return .inr none
    | .ret bs =>
        let dataRecvd := s.dataRecvd ++ bs
        if dataRecvd.length < sizeExpected then
          return .inl ⟨dataRecvd, timeoutTime⟩
        else
          return .inr (some dataRecvd)

/-- `while (dataRecvd < sizeExpected)`, entered with nothing received. -/
def recvLoop (sizeExpected : Nat) (timeoutTime : Rat) : Job (Option (List Byte)) :=
  .iterate (fun s : RecvLoop => Call.recv (sizeExpected - s.dataRecvd.length))
    (recvIteration sizeExpected) ⟨[], timeoutTime⟩

/-- `readAllSocketData`: the buffer, and `success`. -/
def readAllSocketData (success : SuccessRef) (sizeExpected : Nat) :
    Job (Option (List Byte) × Bool) := do
  success.set true
  let now : Rat ← getTime none
  if sizeExpected < 1 then do
    success.set true
    return (none, true)
  else do
    let dataPtr : Bool ← malloc sizeExpected
    if dataPtr = false then do
      success.set false
      return (none, false)
    else do
      match ← recvLoop sizeExpected (now + 10) with
      | none => do
          success.set false
          return (none, false)
      | some data => return (some data, true)

/-- One iteration of `sendToSocket` after its `send`; `sentData` bytes have gone. -/
def sendIteration (data : List Byte) (sentData : Nat) (r : SendRes) : Job (Nat ⊕ Bool) :=
  match r with
  | .err currError =>
      if currError = wsaEWouldBlock then .ret (.inl sentData) else .ret (.inr false)
  | .ret currSentData =>
      if sentData + currSentData < data.length then .ret (.inl (sentData + currSentData))
      else .ret (.inr true)

/-- `sendToSocket`, whose `size` is always that of `data`. -/
def sendToSocket (data : List Byte) : Job Bool :=
  if data.length < 1 then .ret true
  else .iterate (fun sentData => Call.send (data.drop sentData)) (sendIteration data) 0

def ack : List Byte := bytes "ACK"

def nack : List Byte := bytes "NCK"

/-- The common body of `sendAck` and `sendNack`. -/
def sendAllocated (size : Nat) (data : List Byte) : Job Bool := do
  let dataToSend : Bool ← malloc size
  if dataToSend = false then return false
  else sendToSocket data

def sendAck : Job Bool := sendAllocated btTabAckSize ack

def sendNack : Job Bool := sendAllocated btTabNackSize nack

/-- `readAck`: whether the next three bytes are an ACK. -/
def readAck : Job Bool := do
  let ackData : Bool ← malloc btTabAckSize
  if ackData = false then return false
  else do
    let (dataRecvd, success) ← readAllSocketData .loc btTabAckSize
    if success = false then return false
    else return dataRecvd == some ack

/-- `readyToRead` and `readyToWrite`. -/
def selectReady (write : Bool) : Job Bool := do
  let sockState : Int ← select write
  if sockState = socketError then return false
  else return sockState ≠ 0

def readyToRead : Job Bool := selectReady false

def readyToWrite : Job Bool := selectReady true

/-! ## Transfers -/

/-- `internalRead`: the optional vector, and the final value of `success`. -/
def internalRead : Job (Option (List Byte) × Bool) := do
  SuccessRef.trans.set true
  -- trailing ACK of the transaction code
  if !(← sendAck) then do
    SuccessRef.trans.set false
    return (some [], false)
  else do
    let (numOfByteData, success) ← readAllSocketData .trans btExpectedDataReadsize
    if !success then do
      let _ ← sendNack
      SuccessRef.trans.set false
      return (some [], false)
    else do
      let bytesExpected : Int := ofLe32 (numOfByteData.getD [])
      if !(← sendAck) then do
        SuccessRef.trans.set false
        return (some [], false)
      else do
        let (message, success) ← readAllSocketData .trans (toSizeT bytesExpected)
        if !success then do
          let _ ← sendNack
          return (some [], false)
        else
          return (some ((message.getD []).take bytesExpected.toNat), true)

/-- `success = (success && p())`. -/
def andThen (success : Bool) (p : Job Bool) : Job Bool := do
  let success ← if success then p else pure false
  SuccessRef.trans.set success
  return success

/-- `internalWrite`: always the empty optional, and the final value of `success`. -/
def internalWrite (data : List Byte) : Job (Option (List Byte) × Bool) := do
  SuccessRef.trans.set true
  -- `int dataSize = data.size()` keeps the low 32 bits
  let success ← andThen true (sendToSocket (le32 data.length))
  let success ← andThen success readAck
  if !success then return (none, false)
  else do
    let success ← andThen success (sendToSocket data)
    let success ← andThen success readAck
    return (none, success)

end ScoutComputer
