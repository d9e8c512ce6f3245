import ScoutComputer.Bluetooth.Conductor
import ScoutComputer.Bluetooth.TransferProof

/-!
# A transfer from a tablet is all or nothing

`internalRead` writes its success flag through a reference, in several places and
through several functions. Whatever happens on the wire, the flag it leaves behind is
the one it returns (`internalRead_flag`), so `handleTransResult` acts on a received
vector exactly when the transfer went through.
-/

namespace ScoutComputer

open Interact Endian

/-! ## The success flag -/

/-- The observer of the flag behind `std::ref(trans->success)`. -/
def flag : Observer winsock Bool where
  allow _ _ _ := True
  next b c _ :=
    match c with
    | .setSuccess b' => b'
    | _ => b

section
variable {O : Type} {V : Observer winsock O}

theorem recvLoop_keeps (hrecv : ∀ n o r, V.next o (.recv n) r = o)
    (htime : ∀ d o r, V.next o (.getTime d) r = o) (n : Nat) (timeoutTime : Rat) :
    Keeps V (recvLoop n timeoutTime) := by
  have hcheck : ∀ timeoutTime : Rat, ∀ f : Job (RecvLoop ⊕ Option (List Byte)), Keeps V f →
      Keeps V ((getTime (some timeoutTime)).bind fun now =>
        if now > timeoutTime then .ret (.inr none) else f) := by
    intro timeoutTime f hf
    refine Keeps.bind (Keeps.perform (htime _)) fun now => ?_
    split
    · exact Keeps.ret _
    · exact hf
  refine Keeps.iterate (fun _ => hrecv _) fun s r => ?_
  cases r with
  | err code =>
      refine hcheck _ _ ?_
      show Keeps V (if _ then _ else _)
      split
      · exact Keeps.ret _
      · exact Keeps.ret _
  | ret bs =>
      cases bs with
      | nil => exact hcheck _ _ (Keeps.ret _)
      | cons b bs =>
          refine Keeps.bind (p := getTime none) (Keeps.perform (htime _)) fun now => ?_
          refine hcheck _ _ ?_
          show Keeps V (if _ then _ else _)
          split
          · exact Keeps.ret _
          · exact Keeps.ret _

theorem sendToSocket_keeps (hsend : ∀ d o r, V.next o (.send d) r = o) (data : List Byte) :
    Keeps V (sendToSocket data) := by
  unfold sendToSocket
  split
  · exact Keeps.ret _
  · refine Keeps.iterate (fun _ => hsend _) fun s r => ?_
    cases r with
    | err code =>
        unfold sendIteration
        dsimp only
        split
        · exact Keeps.ret _
        · exact Keeps.ret _
    | ret n =>
        unfold sendIteration
        dsimp only
        split
        · exact Keeps.ret _
        · exact Keeps.ret _

theorem selectReady_keeps (hselect : ∀ write o r, V.next o (.select write) r = o)
    (write : Bool) : Keeps V (selectReady write) := by
  refine Keeps.bind (p := select write) (Keeps.perform (hselect _)) fun sockState => ?_
  split
  · exact Keeps.ret _
  · exact Keeps.ret _

variable (hmalloc : ∀ n o r, V.next o (.malloc n) r = o)
include hmalloc

theorem sendAllocated_keeps (hsend : ∀ d o r, V.next o (.send d) r = o) (size : Nat)
    (data : List Byte) : Keeps V (sendAllocated size data) := by
  refine Keeps.bind (p := malloc size) (Keeps.perform (hmalloc _)) fun ok => ?_
  cases ok with
  | false => exact Keeps.ret _
  | true => exact sendToSocket_keeps hsend data

/-- With a local variable for its flag, nothing but what comes in is to be seen of a read. -/
theorem readAllSocketData_keeps (hrecv : ∀ n o r, V.next o (.recv n) r = o)
    (htime : ∀ d o r, V.next o (.getTime d) r = o) (n : Nat) :
    Keeps V (readAllSocketData .loc n) := by
  refine Keeps.bind (p := getTime none) (Keeps.perform (htime _)) fun now => ?_
  split
  · exact Keeps.ret _
  · refine Keeps.bind (p := malloc n) (Keeps.perform (hmalloc _)) fun ok => ?_
    cases ok with
    | false => exact Keeps.ret _
    | true =>
        refine Keeps.bind (recvLoop_keeps hrecv htime n (now + 10)) fun data => ?_
        cases data with
        | none => exact Keeps.ret _
        | some d => exact Keeps.ret _

theorem readAck_keeps (hrecv : ∀ n o r, V.next o (.recv n) r = o)
    (htime : ∀ d o r, V.next o (.getTime d) r = o) : Keeps V readAck := by
  refine Keeps.bind (p := malloc btTabAckSize) (Keeps.perform (hmalloc _)) fun ok => ?_
  cases ok with
  | false => exact Keeps.ret _
  | true =>
      refine Keeps.bind (readAllSocketData_keeps hmalloc hrecv htime btTabAckSize) fun res => ?_
      obtain ⟨data, success⟩ := res
      cases success with
      | false => exact Keeps.ret _
      | true => exact Keeps.ret _

end

theorem sendAllocated_keepsFlag (size : Nat) (data : List Byte) :
    Keeps flag (sendAllocated size data) :=
  sendAllocated_keeps (fun _ _ _ => rfl) (fun _ _ _ => rfl) size data

/-- Assigning to the flag makes it what was assigned. -/
theorem set_flag {α : Type} {b b' : Bool} {f : Unit → Job α} {post : Bool → α → Prop}
    (h : Spec flag (f ()) b' (fun _ => True) post) :
    Spec flag ((SuccessRef.trans.set b').bind f) b (fun _ => True) post :=
  Spec.call trivial fun _ _ => h

theorem readAllSocketData_flag (n : Nat) (b : Bool) :
    Spec flag (readAllSocketData .trans n) b (fun _ => True) fun b' r => b' = r.2 := by
  refine set_flag (Keeps.bind_spec (p := getTime none)
    (Keeps.perform fun _ _ => rfl) trivial fun now => ?_)
  split
  · exact set_flag (Spec.ret trivial rfl)
  · refine Keeps.bind_spec (p := malloc n) (Keeps.perform fun _ _ => rfl) trivial fun ok => ?_
    cases ok with
    | false => exact set_flag (Spec.ret trivial rfl)
    | true =>
        refine Keeps.bind_spec (recvLoop_keeps (fun _ _ _ => rfl) (fun _ _ _ => rfl) n (now + 10))
          trivial fun data => ?_
        cases data with
        | none => exact set_flag (Spec.ret trivial rfl)
        | some d => exact Spec.ret trivial rfl

/-- **The flag a read transfer leaves behind is the one it returns.** -/
theorem internalRead_flag (b : Bool) :
    Spec flag internalRead b (fun _ => True) fun b' r => b' = r.2 := by
  refine set_flag (Keeps.bind_spec (sendAllocated_keepsFlag _ _) trivial fun acked => ?_)
  cases acked with
  | false => exact set_flag (Spec.ret trivial rfl)
  | true =>
  show Spec flag ((readAllSocketData .trans btExpectedDataReadsize).bind _) _ _ _
  refine Spec.bind (readAllSocketData_flag _ _) ?_
  intro b₁ ⟨numOfByteData, success⟩ hb₁
  cases success with
  | false =>
      exact Keeps.bind_spec (sendAllocated_keepsFlag _ _) trivial fun _ =>
        set_flag (Spec.ret trivial rfl)
  | true =>
  refine Keeps.bind_spec (sendAllocated_keepsFlag _ _) trivial fun acked => ?_
  cases acked with
  | false => exact set_flag (Spec.ret trivial rfl)
  | true =>
  show Spec flag ((readAllSocketData .trans _).bind _) _ _ _
  refine Spec.bind (readAllSocketData_flag _ _) ?_
  intro b₂ ⟨message, success⟩ hb₂
  cases success with
  | false =>
      exact Keeps.bind_spec (sendAllocated_keepsFlag _ _) trivial fun _ => Spec.ret trivial hb₂
  | true => exact Spec.ret trivial hb₂

/-! ## The transaction after its job -/

/-- The value of the flag after a run that started with `b`. -/
def flagAfter (b : Bool) (t : Trace) : Bool := flag.run b t

/-- The transaction once its job, whose reference is to the transaction itself, has made `t`. -/
def TabTransaction.afterCalls {ρ : Type} (trans : TabTransaction ρ) (t : Trace) :
    Option (TabTransaction ρ) := do
  let s ← trans.data
  let prog ← s.prog.after t
  return { trans with data := some { s with prog }, success := flagAfter trans.success t }

/-- Every answer of a run is one the surroundings may give. -/
def AllPermitted (t : Trace) : Prop := ∀ e ∈ t, Permitted e.1 e.2

instance : (c : Call) → (r : c.Res) → Decidable (Permitted c r)
  | .malloc size, ok => inferInstanceAs (Decidable (2 ^ 63 ≤ size → ok = false))
  | .recv len, .ret bs => inferInstanceAs (Decidable (bs.length ≤ len))
  | .recv _, .err _ => inferInstanceAs (Decidable True)
  | .send data, .ret n => inferInstanceAs (Decidable (n ≤ data.length))
  | .send _, .err _ => inferInstanceAs (Decidable True)
  | .getTime _, _ => inferInstanceAs (Decidable True)
  | .select _, _ => inferInstanceAs (Decidable True)
  | .closesocket, _ => inferInstanceAs (Decidable True)
  | .setSuccess _, _ => inferInstanceAs (Decidable True)

instance (t : Trace) : Decidable (AllPermitted t) :=
  inferInstanceAs (Decidable (∀ e ∈ t, Permitted e.1 e.2))

theorem AllPermitted.wire {t : Trace} (h : AllPermitted t) (o : Wire) : wire.Allows o t := by
  induction t generalizing o with
  | nil => trivial
  | cons e t ih =>
      exact ⟨h e List.mem_cons_self, ih (fun e' h' => h e' (List.mem_cons_of_mem e h')) _⟩

theorem flag_allows (b : Bool) (t : Trace) : flag.Allows b t := by
  induction t generalizing b with
  | nil => trivial
  | cons e t ih => exact ⟨trivial, ih _⟩

/-- The bytes the observer of the wire has collected are those of the run. -/
theorem wire_run (o : Wire) (t : Trace) :
    (wire.run o t).inp = o.inp ++ received t ∧ (wire.run o t).out = o.out ++ sent t := by
  induction t generalizing o with
  | nil => exact ⟨(List.append_nil _).symm, (List.append_nil _).symm⟩
  | cons e t ih =>
      obtain ⟨h1, h2⟩ := ih (o.next e.1 e.2)
      refine ⟨?_, ?_⟩
      · rw [received, List.flatMap_cons, ← List.append_assoc]
        exact h1
      · rw [sent, List.flatMap_cons, ← List.append_assoc]
        exact h2

section
variable {ρ : Type}

/-- The result of the job of a transaction, once it has returned. -/
def TabTransaction.result? (trans : TabTransaction ρ) : Option (Option (List Byte) × Bool) :=
  trans.data.bind fun s => s.prog.result?

theorem afterCalls_eq_some {trans trans' : TabTransaction ρ} {t : Trace} :
    trans.afterCalls t = some trans' ↔ ∃ s prog, trans.data = some s ∧ s.prog.after t = some prog ∧
      trans' = { trans with
        data := some { s with prog }, success := flagAfter trans.success t } := by
  simp only [TabTransaction.afterCalls, Option.bind_eq_bind, Option.bind_eq_some_iff,
    Option.pure_def, Option.some.injEq]
  constructor
  · intro ⟨s, hs, prog, hp, he⟩
    exact ⟨s, prog, hs, hp, he.symm⟩
  · intro ⟨s, prog, hs, hp, he⟩
    exact ⟨s, hs, prog, hp, he.symm⟩

/-- A read code starts `internalRead`. -/
theorem initReadyTransaction_of_pos (self this : ρ) (launch : Launch) (readWholeFile : Files)
    (owner forCode : Nat) (trans : TabTransaction ρ) {c : TransactionType} (hc : 0 < c) :
    initReadyTransaction self launch readWholeFile owner forCode (trans.read this c) =
      { trans with
        parent := some this
        transactionType := c
        data := some
          { started := launch = .async, this := this, success := self, prog := internalRead,
            owner := owner, forCode := forCode }
        batmanTrans := false
        success := true
        writeTransaction := false } := by
  have hlt : ¬ c < 0 := by
    rw [Int8.lt_iff_toInt_lt] at hc ⊢
    omega
  have herr : c ≠ transSocketError := by
    intro h
    rw [h] at hc
    exact absurd hc (by decide)
  have hclose : c ≠ transCloseSocket := by
    intro h
    rw [h] at hc
    exact absurd hc (by decide)
  simp [initReadyTransaction, TabTransaction.read, TabTransaction.launch, hlt, herr, hclose]

/-- What `data.get()` gives once the job has returned. -/
theorem get_of_result {trans : TabTransaction ρ} {v : Option (List Byte)} {ok : Bool}
    (h : trans.result? = some (v, ok)) : trans.get = .ok (v, { trans with data := none }) := by
  obtain ⟨s, hs, hr⟩ := Option.bind_eq_some_iff.mp h
  simp only [TabTransaction.get, hs, hr]

/-- A finished read transaction whose vector is there is handled without a fault. -/
theorem handleTransResult_of_result (parse : List Byte → Option Json) {trans : TabTransaction ρ}
    {vec : List Byte} {ok : Bool} (hw : trans.writeTransaction = false)
    (h : trans.result? = some (some vec, ok)) :
    ∃ r, handleTransResult parse trans = .ok r ∧
      (trans.success = false → r.statements = [] ∧ r.name = none) := by
  unfold handleTransResult
  rw [if_neg (by rw [hw]; exact Bool.false_ne_true)]
  split
  · rw [get_of_result h]
    cases hs : trans.success with
    | false => exact ⟨_, rfl, fun _ => ⟨rfl, rfl⟩⟩
    | true => exact ⟨_, rfl, fun hf => Bool.noConfusion hf⟩
  · split
    · rw [get_of_result h]
      refine ⟨_, rfl, fun hf => ⟨rfl, ?_⟩⟩
      show (if trans.success then some vec else none) = none
      rw [hf]
      rfl
    · exact ⟨_, rfl, fun _ => ⟨rfl, rfl⟩⟩

/--
**A transfer is all or nothing.** A read transaction whose job has returned either
received exactly the announced payload, or is handled without any effect; and it is
always handled without a fault.
-/
theorem internalRead_all_or_nothing (parse : List Byte → Option Json) (self this : ρ)
    (launch : Launch) (readWholeFile : Files) (owner forCode : Nat)
    (trans trans' : TabTransaction ρ) (c : TransactionType) (t : Trace) (v : Option (List Byte))
    (ok : Bool) (hc : 0 < c) (ht : AllPermitted t)
    (h : (initReadyTransaction self launch readWholeFile owner forCode
      (trans.read this c)).afterCalls t = some trans')
    (hr : trans'.result? = some (v, ok)) :
    (ok = true → ∃ size payload, v = some payload ∧ received t = size ++ payload ∧
      size.length = 4 ∧ ofLe32 size = payload.length) ∧
    ∃ r, handleTransResult parse trans' = .ok r ∧
      (ok = false → r.statements = [] ∧ r.name = none) := by
  rw [initReadyTransaction_of_pos self this launch readWholeFile owner forCode trans hc] at h
  obtain ⟨s, prog, hs, hprog, htrans'⟩ := afterCalls_eq_some.mp h
  have hs := Option.some.inj hs
  subst hs
  subst htrans'
  have hret : prog = .ret (v, ok) := Prog.result?_eq_some.mp hr
  subst hret
  have hwire := ((internalRead_spec Wire.init).after hprog (ht.wire _)).post_of
  have hflag := ((internalRead_flag true).after hprog (flag_allows _ _)).post_of
  have hin : (wire.run Wire.init t).inp = received t := (wire_run Wire.init t).1
  cases hwire with
  | done hm hlen hsize =>
      refine ⟨fun _ => ⟨_, _, rfl, ?_, hlen, hsize⟩, ?_⟩
      · rw [← hin]
        exact hm.inp
      · obtain ⟨r, hhandle, _⟩ := handleTransResult_of_result parse rfl hr
        exact ⟨r, hhandle, fun hf => Bool.noConfusion hf⟩
  | failed _ =>
      refine ⟨fun hf => Bool.noConfusion hf, ?_⟩
      obtain ⟨r, hhandle, hnone⟩ := handleTransResult_of_result parse rfl hr
      exact ⟨r, hhandle, fun _ => hnone hflag⟩

end

/-- The calls of a read transfer in which everything arrives at once. -/
def readCalls (payload : List Byte) : Trace :=
  [⟨.setSuccess true, ()⟩, ⟨.malloc 3, true⟩, ⟨.send ack, .ret 3⟩, ⟨.setSuccess true, ()⟩,
    ⟨.getTime none, (0 : Rat)⟩, ⟨.malloc 4, true⟩, ⟨.recv 4, .ret (le32 payload.length)⟩,
    ⟨.getTime none, (0 : Rat)⟩, ⟨.getTime (some 10), (0 : Rat)⟩, ⟨.malloc 3, true⟩,
    ⟨.send ack, .ret 3⟩, ⟨.setSuccess true, ()⟩, ⟨.getTime none, (0 : Rat)⟩,
    ⟨.malloc payload.length, true⟩, ⟨.recv payload.length, .ret payload⟩,
    ⟨.getTime none, (0 : Rat)⟩, ⟨.getTime (some 10), (0 : Rat)⟩]

theorem internalRead_all_or_nothing_name : ∃ trans' : TabTransaction Nat,
    (initReadyTransaction 0 .async (fun _ => []) 0 1
      (TabTransaction.init.read 0 transRecvTabletInfo)).afterCalls (readCalls (bytes "red")) =
        some trans' ∧
    trans'.result? = some (some (bytes "red"), true) ∧
    (true = true → ∃ size payload, some (bytes "red") = some payload ∧
      received (readCalls (bytes "red")) = size ++ payload ∧ size.length = 4 ∧
      ofLe32 size = payload.length) ∧
    ∃ r, handleTransResult (fun _ => none) trans' = .ok r ∧
      (true = false → r.statements = [] ∧ r.name = none) := by
  have hrun : (internalRead.after (readCalls (bytes "red"))).bind Prog.result? =
      some (some (bytes "red"), true) := by decide +kernel
  obtain ⟨prog, hprog, hr⟩ := Option.bind_eq_some_iff.mp hrun
  have h := afterCalls_eq_some.mpr ⟨_, prog, congrArg TabTransaction.data
    (initReadyTransaction_of_pos 0 0 .async (fun _ => []) 0 1 TabTransaction.init
      (c := transRecvTabletInfo) (by decide)), hprog, rfl⟩
  have hall : AllPermitted (readCalls (bytes "red")) := by decide +kernel
  exact ⟨_, h, hr, internalRead_all_or_nothing (fun _ => none) 0 0 .async (fun _ => []) 0 1 _ _
    transRecvTabletInfo _ _ true (by decide) hall h hr⟩

end ScoutComputer
