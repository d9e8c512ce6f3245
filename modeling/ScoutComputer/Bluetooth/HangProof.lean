import Mathlib.Algebra.Order.Archimedean.Basic
import ScoutComputer.Bluetooth.Transfer
import ScoutComputer.Lib.Endless

/-!
# Which peers can hang a transfer

`readAllSocketData` has a deadline that only received bytes push forward, so it comes
back whatever the peer does. `sendToSocket` has none: a peer that never reads keeps it
in its loop for ever, and with it every routine that sends.
-/

namespace ScoutComputer

open Interact

/-- A `send` that changes nothing: `WSAEWOULDBLOCK`, or none of the bytes accepted. -/
def stalls : (c : Call) → c.Res → Prop
  | .send _, .err code => code = wsaEWouldBlock
  | .send data, .ret n => n = 0 ∧ data ≠ []
  | _, _ => False

/-- Whatever a socket does, next to a clock that goes on for ever. -/
structure Surroundings where
  answer : Answers winsock
  clock : Nat → Rat
  reads : ∀ n d, answer n (Call.getTime d) = clock n
  mono : ∀ m n, m ≤ n → clock m ≤ clock n
  unbounded : ∀ t, ∃ n, t < clock n

section
variable (env : Surroundings)

/-- Beyond some time every reading is past the deadline. -/
theorem Surroundings.late (t : Rat) : ∃ m, ∀ n, m ≤ n → t < env.clock n := by
  obtain ⟨m, hm⟩ := env.unbounded t
  exact ⟨m, fun n hn => lt_of_lt_of_le hm (env.mono m n hn)⟩

/-! ## `readAllSocketData` -/

/-- The loop as it stands when an iteration begins. -/
def recvLoopAt (sizeExpected : Nat) (s : RecvLoop) : Job (Option (List Byte)) :=
  .iterate (fun s : RecvLoop => Call.recv (sizeExpected - s.dataRecvd.length))
    (recvIteration sizeExpected) s

/-- The deadline check of an iteration, before what was received is looked at. -/
theorem deadline_returns {β : Type} {i : Nat} {timeoutTime : Rat}
    {f : Job (RecvLoop ⊕ Option (List Byte))} {g : RecvLoop ⊕ Option (List Byte) → Job β}
    (hlate : Returns env.answer (i + 1) (g (.inr none)))
    (h : ¬ timeoutTime < env.clock i → Returns env.answer (i + 1) (f.bind g)) :
    Returns env.answer i (((getTime (some timeoutTime)).bind fun now =>
      if now > timeoutTime then .ret (.inr none) else f).bind g) := by
  refine Returns.call rfl ?_
  rw [env.reads]
  show Returns env.answer (i + 1) (Prog.bind (if _ then _ else _) _)
  by_cases hnow : timeoutTime < env.clock i
  · rw [if_pos hnow]
    exact hlate
  · rw [if_neg hnow]
    exact h hnow

theorem recvLoopAt_returns (n : Nat) (s : RecvLoop) (i : Nat) :
    Returns env.answer i (recvLoopAt n s) := by
  -- by the bytes that are missing, and for each deadline by the time that is left
  induction hd : n - s.dataRecvd.length using Nat.strongRecOn generalizing s i with
  | ind d ih =>
  subst hd
  obtain ⟨m, hm⟩ := env.late s.timeoutTime
  induction he : m - i using Nat.strongRecOn generalizing i with
  | ind e ihe =>
  subst he
  have hfail : ∀ j, Returns env.answer j (.ret (none : Option (List Byte))) :=
    fun j => Returns.ret j none
  refine Returns.call rfl ?_
  generalize env.answer i (Call.recv (n - s.dataRecvd.length)) = res
  cases res with
  | err code =>
      refine deadline_returns env (hfail _) fun hnow => ?_
      -- the deadline is still to come
      have hlt : i + 1 < m := Nat.lt_of_not_le fun hle => hnow (hm _ hle)
      show Returns env.answer (i + 1 + 1) (Prog.bind (if _ then _ else _) _)
      by_cases hc : code = wsaEWouldBlock ∨ code = wsaEInProgress
      · rw [if_pos hc]
        exact ihe (m - (i + 1 + 1)) (by omega) (i + 1 + 1) rfl
      · rw [if_neg hc]
        exact hfail _
  | ret bs =>
      cases bs with
      | nil => exact deadline_returns env (hfail _) fun _ => hfail _
      | cons b bs =>
          refine Returns.call (c := Call.getTime none) rfl ?_
          refine deadline_returns env (hfail _) fun _ => ?_
          show Returns env.answer (i + 1 + 1 + 1) (Prog.bind (if _ then _ else _) _)
          by_cases hmore : (s.dataRecvd ++ b :: bs).length < n
          · rw [if_pos hmore]
            refine ih _ ?_ ⟨s.dataRecvd ++ b :: bs, _⟩ _ rfl
            rw [List.length_append, List.length_cons] at hmore ⊢
            omega
          · rw [if_neg hmore]
            exact Returns.ret _ _

theorem set_returns (ref : SuccessRef) (b : Bool) (i : Nat) :
    Returns env.answer i (ref.set b) := by
  cases ref with
  | loc => exact Returns.ret i ()
  | trans => exact Returns.perform i _

/-- **A peer that writes nothing, or one byte at a time, does not hang a read.** -/
theorem readAllSocketData_returns (ref : SuccessRef) (n i : Nat) :
    Returns env.answer i (readAllSocketData ref n) := by
  have hset := set_returns env ref
  refine Returns.bind (hset true) (fun _ => Returns.bind (p := getTime none)
    (fun i => Returns.perform i _) fun now => ?_) i
  by_cases hn : n < 1
  · rw [if_pos hn]
    exact Returns.bind (hset true) fun _ i => Returns.ret i _
  · rw [if_neg hn]
    refine Returns.bind (p := malloc n) (fun i => Returns.perform i _) fun ok => ?_
    cases ok with
    | false => exact Returns.bind (hset false) fun _ i => Returns.ret i _
    | true =>
        refine Returns.bind (p := recvLoop n (now + 10)) (recvLoopAt_returns env n _) fun data => ?_
        cases data with
        | none => exact Returns.bind (hset false) fun _ i => Returns.ret i _
        | some d => exact fun i => Returns.ret i _

/-! ## `sendToSocket` -/

/-- Told to try again, the loop makes the same call. -/
theorem sendIteration_stalls {data : List Byte} {k : Nat} {r : SendRes}
    (h : stalls (.send (data.drop k)) r) : sendIteration data k r = .ret (.inl k) := by
  cases r with
  | err code => exact if_pos h
  | ret n =>
      obtain ⟨hn, hdata⟩ := h
      subst hn
      have hk : k + 0 < data.length := by
        refine Nat.lt_of_not_le fun hle => hdata ?_
        exact List.drop_eq_nil_of_le hle
      exact if_pos hk

theorem sendToSocket_ends (data : List Byte) : Ends stalls env.answer (sendToSocket data) := by
  unfold sendToSocket
  split
  · exact Ends.ret true
  · refine Ends.iterate (fun k => data.length - k) (fun k r => sendIteration_stalls) ?_ 0
    intro k r hr
    cases r with
    | err code => exact Or.inl ⟨false, if_neg hr⟩
    | ret n =>
        unfold sendIteration
        dsimp only
        by_cases hmore : k + n < data.length
        · rw [if_pos hmore]
          have hn : n ≠ 0 := by
            intro hn
            refine hr ⟨hn, fun hnil => ?_⟩
            have := List.drop_eq_nil_iff.mp hnil
            omega
          exact Or.inr ⟨k + n, rfl, by omega⟩
        · rw [if_neg hmore]
          exact Or.inl ⟨true, rfl⟩

theorem sendToSocket_waits (data : List Byte) : Waits stalls env.answer (sendToSocket data) := by
  refine ⟨sendToSocket_ends env data, ?_⟩
  unfold sendToSocket
  split
  · trivial
  · refine Patient.iterate (fun k r => sendIteration_stalls) (fun k r => ?_) 0
    cases r with
    | err code =>
        unfold sendIteration
        dsimp only
        split
        · trivial
        · trivial
    | ret n =>
        unfold sendIteration
        dsimp only
        split
        · trivial
        · trivial

/-! ## The routines -/

theorem recvIteration_patient (n : Nat) (s : RecvLoop) (r : RecvRes) :
    Patient stalls (recvIteration n s r) := by
  have hcheck : ∀ timeoutTime : Rat, ∀ f : Job (RecvLoop ⊕ Option (List Byte)),
      Patient stalls f → Patient stalls ((getTime (some timeoutTime)).bind fun now =>
        if now > timeoutTime then .ret (.inr none) else f) := by
    intro timeoutTime f hf
    refine Patient.bind (p := getTime (some timeoutTime)) (Patient.perform fun _ h => h) ?_
    intro now
    split
    · trivial
    · exact hf
  cases r with
  | err code =>
      refine hcheck _ _ ?_
      show Patient (I := winsock) stalls (if _ then _ else _)
      split
      · trivial
      · trivial
  | ret bs =>
      cases bs with
      | nil => exact hcheck _ _ trivial
      | cons b bs =>
          refine Patient.bind (p := getTime none) (Patient.perform fun _ h => h) fun now => ?_
          refine hcheck _ _ ?_
          show Patient (I := winsock) stalls (if _ then _ else _)
          split
          · trivial
          · trivial

theorem set_waits (ref : SuccessRef) (b : Bool) : Waits stalls env.answer (ref.set b) := by
  cases ref with
  | loc => exact Waits.ret ()
  | trans => exact Waits.perform fun _ h => h

theorem malloc_waits (n : Nat) : Waits stalls env.answer (malloc n) := Waits.perform fun _ h => h

theorem readAllSocketData_waits (ref : SuccessRef) (n : Nat) :
    Waits stalls env.answer (readAllSocketData ref n) := by
  have hset := set_waits env ref
  refine Waits.bind (hset true) fun _ => Waits.bind (p := getTime none)
    (Waits.perform fun _ h => h) fun now => ?_
  split
  · exact Waits.bind (hset true) fun _ => Waits.ret _
  · refine Waits.bind (malloc_waits env n) fun ok => ?_
    cases ok with
    | false => exact Waits.bind (hset false) fun _ => Waits.ret _
    | true =>
        have hloop : Waits stalls env.answer (recvLoop n (now + 10)) :=
          ⟨Ends.of_returns (recvLoopAt_returns env n _),
            Patient.iterate (fun _ _ h => absurd h id) (recvIteration_patient n) _⟩
        refine Waits.bind hloop fun data => ?_
        cases data with
        | none => exact Waits.bind (hset false) fun _ => Waits.ret _
        | some d => exact Waits.ret _

theorem sendAllocated_waits (size : Nat) (data : List Byte) :
    Waits stalls env.answer (sendAllocated size data) := by
  refine Waits.bind (malloc_waits env size) fun ok => ?_
  cases ok with
  | false => exact Waits.ret false
  | true => exact sendToSocket_waits env data

theorem readAck_waits : Waits stalls env.answer readAck := by
  refine Waits.bind (malloc_waits env _) fun ok => ?_
  cases ok with
  | false => exact Waits.ret false
  | true =>
      refine Waits.bind (readAllSocketData_waits env .loc btTabAckSize) ?_
      intro ⟨dataRecvd, success⟩
      cases success with
      | false => exact Waits.ret false
      | true => exact Waits.ret _

theorem internalRead_waits : Waits stalls env.answer internalRead := by
  have hset := set_waits env .trans
  refine Waits.bind (hset true) fun _ => Waits.bind (sendAllocated_waits env _ _) fun acked => ?_
  cases acked with
  | false => exact Waits.bind (hset false) fun _ => Waits.ret _
  | true =>
  refine Waits.bind (readAllSocketData_waits env .trans btExpectedDataReadsize) ?_
  intro ⟨numOfByteData, success⟩
  cases success with
  | false =>
      exact Waits.bind (sendAllocated_waits env _ _) fun _ =>
        Waits.bind (hset false) fun _ => Waits.ret _
  | true =>
  refine Waits.bind (sendAllocated_waits env _ _) fun acked => ?_
  cases acked with
  | false => exact Waits.bind (hset false) fun _ => Waits.ret _
  | true =>
  refine Waits.bind (readAllSocketData_waits env .trans _) ?_
  intro ⟨message, success⟩
  cases success with
  | false => exact Waits.bind (sendAllocated_waits env _ _) fun _ => Waits.ret _
  | true => exact Waits.ret _

theorem andThen_waits (success : Bool) {p : Job Bool} (hp : Waits stalls env.answer p) :
    Waits stalls env.answer (andThen success p) := by
  unfold andThen
  cases success with
  | false =>
      refine Waits.bind (Waits.ret false) fun b => ?_
      exact Waits.bind (set_waits env .trans b) fun _ => Waits.ret b
  | true => exact hp.bind fun b => Waits.bind (set_waits env .trans b) fun _ => Waits.ret b

theorem internalWrite_waits (data : List Byte) :
    Waits stalls env.answer (internalWrite data) := by
  refine Waits.bind (set_waits env .trans true) fun _ => ?_
  refine Waits.bind (andThen_waits env true (sendToSocket_waits env _)) fun b => ?_
  refine Waits.bind (andThen_waits env b (readAck_waits env)) fun b => ?_
  cases b with
  | false => exact Waits.ret _
  | true =>
      refine Waits.bind (andThen_waits env true (sendToSocket_waits env data)) fun b => ?_
      exact Waits.bind (andThen_waits env b (readAck_waits env)) fun b => Waits.ret _

end

/-- The routines that talk to a tablet in loops. -/
inductive Routine where
  | readAllSocketData (success : SuccessRef) (sizeExpected : Nat)
  | sendToSocket (data : List Byte)
  | sendAck
  | sendNack
  | readAck
  | internalRead
  | internalWrite (data : List Byte)

def Routine.Result : Routine → Type
  | readAllSocketData _ _ => Option (List Byte) × Bool
  | sendToSocket _ => Bool
  | sendAck => Bool
  | sendNack => Bool
  | readAck => Bool
  | internalRead => Option (List Byte) × Bool
  | internalWrite _ => Option (List Byte) × Bool

def Routine.job : (r : Routine) → Job r.Result
  | readAllSocketData success sizeExpected => ScoutComputer.readAllSocketData success sizeExpected
  | sendToSocket data => ScoutComputer.sendToSocket data
  | sendAck => ScoutComputer.sendAck
  | sendNack => ScoutComputer.sendNack
  | readAck => ScoutComputer.readAck
  | internalRead => ScoutComputer.internalRead
  | internalWrite data => ScoutComputer.internalWrite data

/--
**A routine returns** unless it comes to a `send` of which the socket never again accepts
a byte nor reports a failure; the two that only receive always return.
-/
theorem routine_returns_iff (env : Surroundings) (i : Nat) :
    (∀ r : Routine, Returns env.answer i r.job ↔ ¬ Blocks stalls env.answer i r.job) ∧
      (∀ success sizeExpected, Returns env.answer i (readAllSocketData success sizeExpected)) ∧
      Returns env.answer i readAck := by
  refine ⟨fun r => ?_, fun ref n => readAllSocketData_returns env ref n i, ?_⟩
  · cases r with
    | readAllSocketData ref n => exact (readAllSocketData_waits env ref n).returns_iff i
    | sendToSocket data => exact (sendToSocket_waits env data).returns_iff i
    | sendAck => exact (sendAllocated_waits env _ _).returns_iff i
    | sendNack => exact (sendAllocated_waits env _ _).returns_iff i
    | readAck => exact (readAck_waits env).returns_iff i
    | internalRead => exact (internalRead_waits env).returns_iff i
    | internalWrite data => exact (internalWrite_waits env data).returns_iff i
  · refine Returns.bind (p := malloc btTabAckSize) (fun i => Returns.perform i _) ?_ i
    intro ok
    cases ok with
    | false => exact fun i => Returns.ret i false
    | true =>
        refine Returns.bind (readAllSocketData_returns env .loc btTabAckSize) ?_
        intro ⟨dataRecvd, success⟩
        cases success with
        | false => exact fun i => Returns.ret i false
        | true => exact fun i => Returns.ret i _

/-- A tablet that has stopped reading, next to a clock that ticks once a call. -/
def deafTablet : Surroundings where
  answer n
    | .malloc _ => true
    | .getTime _ => (n : Rat)
    | .recv _ => .err wsaEWouldBlock
    | .send _ => .err wsaEWouldBlock
    | .select _ => (0 : Int)
    | .closesocket => ()
    | .setSuccess _ => ()
  clock n := (n : Rat)
  reads _ _ := rfl
  mono _ _ h := Nat.cast_le.mpr h
  unbounded t := exists_nat_gt t

/-- The NACK to it is never finished, and nothing after it is ever done. -/
theorem sendNack_deafTablet : ¬ Returns deafTablet.answer 0 sendNack := by
  refine (sendAllocated_waits deafTablet _ _).patient.not_returns ?_
  exact ⟨1, sendToSocket nack, _, _, .step rfl .refl, rfl, fun _ _ => rfl⟩

end ScoutComputer
