import Mathlib.Data.List.GetD
import Mathlib.Data.List.Nodup
import ScoutComputer.Bluetooth.Conductor
import ScoutComputer.Lib.Steps

/-!
# `Bluetooth`: the tablets, the queue and the main thread

`connectedTablets` holds the tablet objects by value and `runningTransactions` holds
pointers into it, as do the transactions and the jobs. What a pointer means is given by
an `Addressing`: `slots` is what the program does, where a pointer is a place in the
buffer of the vector; `handles` is the idealisation in which a pointer follows its
tablet wherever the vector moves it.

The main thread makes one call or one piece of straight-line code at a time, and the
transfer jobs make their calls in between, each on its own thread. The log is a ghost.
-/

namespace ScoutComputer

open Interact

/-- How pointers to tablets are made and resolved, given the buffer and the sockets in it. -/
structure Addressing (ρ : Type) where
  addr : Nat → List Socket → Nat → ρ
  find : Nat → List Socket → ρ → Option Nat
  find_addr : ∀ {buf : Nat} {sockets : List Socket} {i : Nat}, sockets.Nodup →
    i < sockets.length → find buf sockets (addr buf sockets i) = some i

/-- A pointer is a buffer and an index into it. -/
def slots : Addressing (Nat × Nat) where
  addr buf _ i := (buf, i)
  find buf sockets p := if p.1 = buf ∧ p.2 < sockets.length then some p.2 else none
  find_addr := by
    intro buf sockets i _ hi
    exact if_pos ⟨rfl, hi⟩

/-- A pointer is the handle of the tablet. -/
def handles : Addressing Socket where
  addr _ sockets i := sockets.getD i 0
  find _ sockets h := if h ∈ sockets then some (sockets.idxOf h) else none
  find_addr := by
    intro buf sockets i hn hi
    have hget : sockets.getD i 0 = sockets[i] := List.getD_eq_getElem _ _ hi
    rw [hget, if_pos (List.getElem_mem hi), hn.idxOf_getElem]

/-! ## The state -/

/-- Where `handleTransResult` was called from. -/
inductive Caller where
  | ready (i : Nat)
  | running (i : Nat)
  deriving DecidableEq

/-- Where the main thread is. -/
inductive Pc (ρ : Type) where
  /-- Between two calls of the public operations. -/
  | idle
  /-- At index `i` of the loop of `handleReadyConnections`. -/
  | ready (i : Nat)
  /-- In the calls it makes for the tablet at index `i`. -/
  | polling (i : Nat) (p : Job (Option TransactionType))
  /-- With the transaction `initReadyTransaction` has returned. -/
  | started (i : Nat) (trans : ρ)
  /-- In `handleTransResult`, for a transaction of tablet `owner`. -/
  | handling (trans : ρ) (owner : Nat) (caller : Caller)
  /-- At index `i` of the loop of `handleRunningTransactions`. -/
  | running (i : Nat)
  /-- After undefined behaviour or an uncaught exception. -/
  | crashed

/-- What the jobs and the handling of results do, with the tablets they do it to. -/
inductive Effect where
  /-- A job of `owner` moved bytes through the socket of `via`. -/
  | moved (via : Option Nat) (owner : Nat) (taken given : List Byte)
  /-- A job of `owner` wrote the success flag of `on`. -/
  | flagged (on : Option Nat) (owner : Nat)
  /-- The result of `owner` gave a name to `on`. -/
  | named (on : Option Nat) (owner : Nat) (name : List Byte)
  /-- The result of `owner` ended the transaction of `on`. -/
  | released (on : Option Nat) (owner : Nat)
  /-- The result of `owner` was submitted to the database. -/
  | submitted (owner : Nat) (statements : List (List Byte))
  /-- The future of `serial` was consulted for code `c`; `current` if it was started for it. -/
  | consulted (serial : Nat) (c : TransactionType) (current : Bool)
  /-- `closesocket` on the socket of `serial`. -/
  | closed (serial : Nat)
  deriving DecidableEq

/-- An element of `runningTransactions`; `owner` is a ghost. -/
structure QueueEntry (ρ : Type) where
  trans : ρ
  owner : Nat

/-- `Bluetooth`, with the buffer of `connectedTablets`. -/
structure Bluetooth (ρ : Type) where
  buf : Nat
  capacity : Nat
  connectedTablets : List (BtTabObj ρ)
  runningTransactions : List (QueueEntry ρ)
  pc : Pc ρ
  /-- How many tablets have been accepted. -/
  accepted : Nat
  log : List Effect

namespace Bluetooth

variable {ρ : Type}

def init : Bluetooth ρ where
  buf := 0
  capacity := 0
  connectedTablets := []
  runningTransactions := []
  pc := .idle
  accepted := 0
  log := []

def sockets (w : Bluetooth ρ) : List Socket := w.connectedTablets.map (·.socket)

def serials (w : Bluetooth ρ) : List Nat := w.connectedTablets.map (·.serial)

variable (A : Addressing ρ)

/-- The index a pointer resolves to. -/
def index (w : Bluetooth ρ) (p : ρ) : Option Nat := A.find w.buf w.sockets p

/-- The tablet a pointer resolves to. -/
def resolve (w : Bluetooth ρ) (p : ρ) : Option Nat := (w.index A p).bind fun i => w.serials[i]?

/-- A pointer to the tablet at index `i`. -/
def pointer (w : Bluetooth ρ) (i : Nat) : ρ := A.addr w.buf w.sockets i

/-- Change the tablet at index `i`. -/
def modifyAt (w : Bluetooth ρ) (i : Nat) (f : BtTabObj ρ → BtTabObj ρ) : Bluetooth ρ :=
  { w with connectedTablets := w.connectedTablets.modify i f }

/-- Change the tablet a pointer resolves to, if any. -/
def modify (w : Bluetooth ρ) (p : ρ) (f : BtTabObj ρ → BtTabObj ρ) : Bluetooth ρ :=
  match w.index A p with
  | none => w
  | some i => w.modifyAt i f

/-- The tablet behind a pointer. -/
def deref (w : Bluetooth ρ) (p : ρ) : Option (BtTabObj ρ) :=
  (w.index A p).bind fun i => w.connectedTablets[i]?

def note (w : Bluetooth ρ) (e : Effect) : Bluetooth ρ := { w with log := w.log ++ [e] }

def goto (w : Bluetooth ρ) (pc : Pc ρ) : Bluetooth ρ := { w with pc }

/-! ## Accepting and killing -/

/--
`acceptConn`, for what `accept` returned. A handle that is still in the table cannot be
returned. A vector that is full moves its tablets to a new buffer.
-/
def acceptConn (w : Bluetooth ρ) (peer : Option (Socket × List Byte)) (grow : Nat) :
    Option (Bluetooth ρ) :=
  match peer with
  | none => some w
  | some (socket, mac) =>
      if socket ∈ w.sockets then none
      else
        let w' := { w with
          connectedTablets := w.connectedTablets ++ [.ofSocket w.accepted socket mac]
          accepted := w.accepted + 1 }
        if w.connectedTablets.length < w.capacity then some w'
        else some { w' with buf := w.buf + 1, capacity := max grow (w.capacity + 1) }

/-- The first tablet with a socket. -/
def findSocket (w : Bluetooth ρ) (socket : Socket) : Option Nat :=
  if socket ∈ w.sockets then some (w.sockets.idxOf socket) else none

/--
`killSocket`. The destructor of a future waits for its job, so the tablet is gone only
when its job has returned.
-/
def killSocket (w : Bluetooth ρ) (deleteSock : Socket) : Option (Bluetooth ρ) :=
  match w.findSocket deleteSock with
  | none => some w
  | some i =>
      match w.connectedTablets[i]? with
      | none => none
      | some t =>
          if t.jobRunning then none
          else some ({ w with connectedTablets := w.connectedTablets.eraseIdx i }.note
            (.closed t.serial))

/-- `killAllSockets`, which waits in the same way. -/
def killAllSockets (w : Bluetooth ρ) : Option (Bluetooth ρ) :=
  if w.connectedTablets.any (·.jobRunning) then none
  else some { w with
    connectedTablets := []
    log := w.log ++ w.connectedTablets.map fun t => .closed t.serial }

/-! ## The main thread -/

/-- Ask the future of a transaction of tablet `serial` whether it is there for the last code. -/
def consult (w : Bluetooth ρ) (t : BtTabObj ρ) : Bluetooth ρ :=
  w.note (.consulted t.serial t.currTrans.transactionType
    (t.currTrans.data.map (·.forCode) == some t.codesRead))

/-- A call made for the tablet at index `i` has returned. -/
def callReturned (w : Bluetooth ρ) (e : Event winsock) : Option (Bluetooth ρ) :=
  match w.pc with
  | .polling i p =>
      match p.feed e, w.connectedTablets[i]? with
      | some p', some t =>
          let w' := w.goto (.polling i p')
          some (if e.1 = .closesocket then w'.note (.closed t.serial) else w')
      | _, _ => none
  | _ => none

/-- What `initReadyTransaction` leaves in the tablet at `self`, for the code it was served for. -/
def serve (self : ρ) (launch : Launch) (readWholeFile : Files) (c : TransactionType)
    (t : BtTabObj ρ) : BtTabObj ρ :=
  { t with
    codesRead := t.codesRead + 1
    currTrans := initReadyTransaction self launch readWholeFile t.serial (t.codesRead + 1)
      (t.currTrans.read self c) }

/-- The calls for the tablet at index `i` are over. -/
def polled (w : Bluetooth ρ) (launch : Launch) (readWholeFile : Files) (i : Nat) :
    Option TransactionType → Option (Bluetooth ρ)
  | none => some (w.goto (.ready (i + 1)))
  | some c =>
      match w.connectedTablets[i]? with
      | none => none
      | some t =>
          -- a new future takes the place of the old one, whose job has to return first
          if t.jobRunning || !(t.callType.policy.contains launch) then none
          else
            let self := w.pointer A i
            some ((w.modifyAt i (serve self launch readWholeFile c)).goto (.started i self))

/-- `runningTransactions.push_back`. -/
def push (w : Bluetooth ρ) (e : QueueEntry ρ) : Bluetooth ρ :=
  { w with runningTransactions := w.runningTransactions ++ [e] }

/-- `runningTransactions.erase`. -/
def erase (w : Bluetooth ρ) (i : Nat) : Bluetooth ρ :=
  { w with runningTransactions := w.runningTransactions.eraseIdx i }

def setTransactionState (isUndergoing : Bool) (t : BtTabObj ρ) : BtTabObj ρ :=
  { t with transactionState := isUndergoing }

def setScoutingName (name : List Byte) (t : BtTabObj ρ) : BtTabObj ρ :=
  { t with tabScoutingName := name }

/-- `initReadyTransaction` has returned `trans`. -/
def startedTrans (w : Bluetooth ρ) (i : Nat) (trans : ρ) : Option (Bluetooth ρ) :=
  match w.deref A trans with
  | none => some (w.goto .crashed)
  | some t =>
      if t.currTrans.batmanTrans then
        match t.currTrans.parent.bind (w.deref A) with
        | none => some (w.goto .crashed)
        | some parent => (w.killSocket parent.socket).map fun w' => w'.goto (.ready (i + 1))
      else
        let w' := w.consult t
        match t.currTrans.isReady with
        | none => some (w'.goto .crashed)
        | some true => some (w'.goto (.handling trans t.serial (.ready i)))
        | some false =>
            match t.currTrans.parent with
            | none => some (w'.goto .crashed)
            | some parent => some (((w'.push ⟨trans, t.serial⟩).modify A parent
                (setTransactionState true)).goto (.ready (i + 1)))

/-- What `handleTransResult` leaves in a transaction. -/
def store (trans : TabTransaction ρ) (t : BtTabObj ρ) : BtTabObj ρ := { t with currTrans := trans }

/-- The name a result gives to `parent`, if it gives one. -/
def name (w : Bluetooth ρ) (parent : ρ) (owner : Nat) : Option (List Byte) → Bluetooth ρ
  | none => w
  | some name => (w.modify A parent (setScoutingName name)).note
      (.named (w.resolve A parent) owner name)

/-- `handleTransResult` has given `r` for a transaction of tablet `owner`. -/
def handled (w : Bluetooth ρ) (trans : ρ) (owner : Nat) (caller : Caller) (r : Handled ρ) :
    Bluetooth ρ :=
  let w := (w.modify A trans (store r.trans)).note (.submitted owner r.statements)
  match r.trans.parent with
  | none => w.goto .crashed
  | some parent =>
      let w := w.name A parent owner r.name
      match caller with
      | .ready i => w.goto (.ready (i + 1))
      | .running i => (((w.erase i).modify A parent (setTransactionState false)).note
          (.released (w.resolve A parent) owner)).goto (.running (i + 1))

/-- `get()` runs a deferred job on the main thread. -/
def start (t : BtTabObj ρ) : BtTabObj ρ :=
  { t with currTrans := { t.currTrans with
      data := t.currTrans.data.map fun s => { s with started := true } } }

/-- In `handleTransResult`. -/
def handle (parse : List Byte → Option Json) (w : Bluetooth ρ) (trans : ρ) (owner : Nat)
    (caller : Caller) : Option (Bluetooth ρ) :=
  match w.deref A trans with
  | none => some (w.goto .crashed)
  | some t =>
      let w' := if t.currTrans.needsGet then w.consult t else w
      match handleTransResult parse t.currTrans with
      | .error .waiting => if t.jobRunning then none else some (w'.modify A trans start)
      | .error _ => some (w'.goto .crashed)
      | .ok r => some (w'.handled A trans owner caller r)

/-- At index `i` of `runningTransactions`. -/
def checkRunning (w : Bluetooth ρ) (i : Nat) : Bluetooth ρ :=
  match w.runningTransactions[i]? with
  | none => w.goto .idle
  | some e =>
      match w.deref A e.trans with
      | none => w.goto .crashed
      | some t =>
          let w' := w.consult t
          match t.currTrans.isReady with
          | none => w'.goto .crashed
          | some true => w'.goto (.handling e.trans e.owner (.running i))
          | some false => w'.goto (.running (i + 1))

/-! ## The jobs -/

/-- The job of a tablet has gone on to `prog`. -/
def advance (s : SharedState ρ) (prog : Job (Option (List Byte) × Bool)) (t : BtTabObj ρ) :
    BtTabObj ρ :=
  { t with currTrans := { t.currTrans with data := some { s with prog } } }

/-- A write through `std::ref(trans->success)`. -/
def setFlag (b : Bool) (t : BtTabObj ρ) : BtTabObj ρ :=
  { t with currTrans := { t.currTrans with success := b } }

/-- A call of the job of the tablet at index `i` has returned. -/
def jobReturned (w : Bluetooth ρ) (i : Nat) (e : Event winsock) : Option (Bluetooth ρ) := do
  let t ← w.connectedTablets[i]?
  let s ← t.currTrans.data
  if s.started then
    let prog ← s.prog.feed e
    let w' := w.modifyAt i (advance s prog)
    match e.1 with
    | .setSuccess b =>
        return (w'.modify A s.success (setFlag b)).note
          (.flagged (w.resolve A s.success) s.owner)
    | _ => return w'.note (.moved (w.resolve A s.this) s.owner (taken e.1 e.2) (given e.1 e.2))
  else none

/-! ## Steps -/

/-- What happens next. -/
inductive Act where
  /-- `updateAllBt` is called, and `accept` returns `peer`. -/
  | updateAllBt (peer : Option (Socket × List Byte)) (grow : Nat)
  /-- A call of the main thread returns. -/
  | call (e : Event winsock)
  /-- The main thread goes on to its next call. -/
  | go (launch : Launch) (readWholeFile : Files)
  /-- A call of the job of the tablet at index `i` returns. -/
  | job (i : Nat) (e : Event winsock)
  | killSocket (deleteSock : Socket)
  | killAllSockets

/-- The straight-line code of the main thread between two calls. -/
def go (parse : List Byte → Option Json) (w : Bluetooth ρ) (launch : Launch)
    (readWholeFile : Files) : Option (Bluetooth ρ) :=
  match w.pc with
  | .ready i =>
      match w.connectedTablets[i]? with
      | none => some (w.goto (.running 0))
      | some t => some (w.goto (.polling i (serveTablet t.transactionState)))
  | .polling i p => p.result?.bind (w.polled A launch readWholeFile i)
  | .started i currTrans => w.startedTrans A i currTrans
  | .handling currTrans owner caller => w.handle A parse currTrans owner caller
  | .running i => some (w.checkRunning A i)
  | .idle | .crashed => none

def act (parse : List Byte → Option Json) (w : Bluetooth ρ) : Act → Option (Bluetooth ρ)
  | .updateAllBt peer grow =>
      match w.pc with
      | .idle => (w.acceptConn peer grow).map fun w => w.goto (.ready 0)
      | _ => none
  | .call e => w.callReturned e
  | .go launch readWholeFile => w.go A parse launch readWholeFile
  | .job i e =>
      match w.pc with
      | .crashed => none
      | _ => w.jobReturned A i e
  | .killSocket deleteSock =>
      match w.pc with
      | .idle => w.killSocket deleteSock
      | _ => none
  | .killAllSockets =>
      match w.pc with
      | .idle => w.killAllSockets
      | _ => none

/-- The states reached by runs whose steps all meet `ok`. -/
abbrev Run (parse : List Byte → Option Json) (ok : Bluetooth ρ → Act → Prop) :
    Bluetooth ρ → Prop := Steps.Run (act A parse) ok init

end Bluetooth

end ScoutComputer
