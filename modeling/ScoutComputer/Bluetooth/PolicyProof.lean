import ScoutComputer.Bluetooth.ConductorProof

/-!
# The launch policy

A job that was launched `async` runs on its own, and its transaction waits in the queue
until it is over. A `deferred` one reports itself ready at once and runs when
`handleTransResult` calls `get()`, which it does for the read transactions only.
-/

namespace ScoutComputer

open Interact Endian

/-- What a transaction has led to once it has been handled. -/
structure Outcome where
  sent : List Byte
  statements : List (List Byte)
  name : Option (List Byte)
  deriving DecidableEq

section
variable {ρ : Type} (parse : List Byte → Option Json)

/-- `handleTransResult`, after the job has made the calls `t` and returned. -/
def TabTransaction.handleAfter (trans : TabTransaction ρ) (t : Trace) : Option Outcome :=
  (trans.afterCalls t).bind fun trans' =>
    match trans'.result?, handleTransResult parse trans' with
    | some _, .ok r => some ⟨sent t, r.statements, r.name⟩
    | _, _ => none

/--
What `handleReadyConnections` and `handleRunningTransactions` make of a transaction that
was started. The calls `t` are those its job makes if it runs.
-/
def TabTransaction.outcome (trans : TabTransaction ρ) (t : Trace) : Option Outcome :=
  match trans.isReady with
  | none => none
  | some false => trans.handleAfter parse t
  | some true =>
      match handleTransResult parse trans with
      | .ok r => some ⟨[], r.statements, r.name⟩
      | .error .waiting => trans.handleAfter parse t
      | .error _ => none

end

/-! ## What a write transfer offers -/

/-- Whether every `send` so far has offered something. -/
def offers : Observer winsock Bool where
  allow _ _ _ := True
  next b c _ :=
    match c with
    | .send data => b && !data.isEmpty
    | _ => b

theorem sendToSocket_offers (data : List Byte) : Keeps offers (sendToSocket data) := by
  unfold sendToSocket
  by_cases hlen : data.length < 1
  · rw [if_pos hlen]
    exact Keeps.ret _
  · rw [if_neg hlen]
    intro o
    refine Spec.loop (fun k o' => k < data.length ∧ o' = o) ⟨by omega, rfl⟩ ?_
    intro k o' ⟨hk, ho⟩
    subst ho
    refine ⟨rfl, fun res _ => ?_⟩
    have hnext : offers.next o' (Call.send (data.drop k)) res = o' := by
      have hne : (data.drop k).isEmpty = false := by
        rw [List.isEmpty_eq_false_iff, ← List.length_pos_iff, List.length_drop]
        omega
      show (o' && !(data.drop k).isEmpty) = o'
      rw [hne, Bool.not_false, Bool.and_true]
    rw [hnext]
    show Spec offers (sendIteration data k res) o' _ _
    cases res with
    | err code =>
        unfold sendIteration
        dsimp only
        split
        · exact Spec.ret rfl ⟨hk, rfl⟩
        · exact Spec.ret rfl (Spec.ret rfl rfl)
    | ret n =>
        unfold sendIteration
        dsimp only
        split
        · rename_i hmore
          exact Spec.ret rfl ⟨hmore, rfl⟩
        · exact Spec.ret rfl (Spec.ret rfl rfl)

theorem readAck_offers : Keeps offers readAck :=
  readAck_keeps (fun _ _ _ => rfl) (fun _ _ _ => rfl) fun _ _ _ => rfl

theorem andThen_offers {p : Job Bool} (hp : Keeps offers p) (success : Bool) :
    Keeps offers (andThen success p) := by
  have hset : ∀ b : Bool, Keeps offers ((SuccessRef.trans.set b).bind fun _ => .ret b) :=
    fun b => Keeps.bind (p := setSuccess b) (Keeps.perform fun _ _ => rfl) fun _ => Keeps.ret _
  cases success with
  | false => exact hset false
  | true => exact Keeps.bind hp hset

theorem internalWrite_offers (data : List Byte) : Keeps offers (internalWrite data) := by
  refine Keeps.bind (p := setSuccess true) (Keeps.perform fun _ _ => rfl) fun _ => ?_
  refine Keeps.bind (andThen_offers (sendToSocket_offers _) true) fun b => ?_
  refine Keeps.bind (andThen_offers readAck_offers b) fun b => ?_
  cases b with
  | false => exact Keeps.ret _
  | true =>
      refine Keeps.bind (andThen_offers (sendToSocket_offers data) true) fun b => ?_
      exact Keeps.bind (andThen_offers readAck_offers b) fun b => Keeps.ret _

theorem offers_allows (b : Bool) (t : Trace) : offers.Allows b t := by
  induction t generalizing b with
  | nil => trivial
  | cons e t ih => exact ⟨trivial, ih _⟩

theorem offers_run {b : Bool} {t : Trace} (h : offers.run b t = true) :
    b = true ∧ ∀ e ∈ t, offers.next true e.1 e.2 = true := by
  induction t generalizing b with
  | nil => exact ⟨h, fun _ he => absurd he List.not_mem_nil⟩
  | cons e t ih =>
      obtain ⟨hb, ht⟩ := ih h
      have hbt : b = true := by
        cases b with
        | true => rfl
        | false =>
            obtain ⟨c, r⟩ := e
            cases c <;> exact hb
      subst hbt
      refine ⟨rfl, fun e' he' => ?_⟩
      rcases List.mem_cons.mp he' with rfl | hm
      · exact hb
      · exact ht e' hm

/-- The socket takes nothing in this call. -/
def TakesNothing : (c : Call) → c.Res → Prop
  | .send _, .ret n => n = 0
  | _, _ => True

theorem sent_eq_nil_iff {data : List Byte} {t : Trace} {q : Job (Option (List Byte) × Bool)}
    (h : (internalWrite data).after t = some q) :
    sent t = [] ↔ ∀ e ∈ t, TakesNothing e.1 e.2 := by
  have hrun := ((internalWrite_offers data true).after h (offers_allows _ _)).inv_of
  have hoffer := (offers_run hrun).2
  unfold sent
  rw [List.flatMap_eq_nil_iff]
  refine forall₂_congr fun e he => ?_
  have he := hoffer e he
  obtain ⟨c, r⟩ := e
  cases c with
  | send data' =>
      cases r with
      | err code => exact ⟨fun _ => trivial, fun _ => rfl⟩
      | ret n =>
          have hne : data' ≠ [] := by
            intro hnil
            subst hnil
            exact Bool.noConfusion he
          show data'.take n = [] ↔ n = 0
          rw [List.take_eq_nil_iff]
          exact or_iff_left hne
  | recv n => exact ⟨fun _ => trivial, fun _ => rfl⟩
  | malloc n => exact ⟨fun _ => trivial, fun _ => rfl⟩
  | getTime d => exact ⟨fun _ => trivial, fun _ => rfl⟩
  | select w => exact ⟨fun _ => trivial, fun _ => rfl⟩
  | closesocket => exact ⟨fun _ => trivial, fun _ => rfl⟩
  | setSuccess b => exact ⟨fun _ => trivial, fun _ => rfl⟩

/-! ## Both launches -/

section
variable {ρ : Type} (parse : List Byte → Option Json) (self : ρ) (readWholeFile : Files)
  (owner forCode : Nat)

/-- A transaction that a code has just been read for, with what its job was given. -/
def readStarted (launch : Launch) (trans : TabTransaction ρ) (c : TransactionType) :
    TabTransaction ρ :=
  { trans with
    parent := some self
    transactionType := c
    data := some ⟨launch = .async, self, self, internalRead, owner, forCode⟩
    batmanTrans := false
    success := true
    writeTransaction := false }

theorem handleAfter_eq_some {trans : TabTransaction ρ} {t : Trace} {o : Outcome} :
    trans.handleAfter parse t = some o ↔ ∃ trans' res r, trans.afterCalls t = some trans' ∧
      trans'.result? = some res ∧ handleTransResult parse trans' = .ok r ∧
      o = ⟨sent t, r.statements, r.name⟩ := by
  unfold TabTransaction.handleAfter
  rw [Option.bind_eq_some_iff]
  constructor
  · intro ⟨trans', ht, ho⟩
    split at ho
    · rename_i res r hres hr
      exact ⟨trans', res, r, ht, hres, hr, (Option.some.inj ho).symm⟩
    · exact absurd ho (by simp)
  · intro ⟨trans', res, r, ht, hres, hr, ho⟩
    refine ⟨trans', ht, ?_⟩
    rw [hres, hr, ho]

/-- The result of a read transaction does not depend on how its job was launched. -/
theorem handleAfter_readStarted {launch : Launch} (launch' : Launch) {trans : TabTransaction ρ}
    {c : TransactionType} (hc : c = transRecvMatch ∨ c = transRecvTabletInfo) {t : Trace}
    {o : Outcome} (h : (readStarted self owner forCode launch trans c).handleAfter parse t = some o) :
    (readStarted self owner forCode launch' trans c).handleAfter parse t = some o := by
  obtain ⟨trans₁, res, r, ht, hres, hr, ho⟩ := (handleAfter_eq_some parse).mp h
  obtain ⟨s, prog, hs, hprog, htrans⟩ := afterCalls_eq_some.mp ht
  cases Option.some.inj hs
  subst htrans
  have hret : prog = .ret res := Prog.result?_eq_some.mp hres
  subst hret
  refine (handleAfter_eq_some parse).mpr ⟨_, res, r, afterCalls_eq_some.mpr
    ⟨_, _, rfl, hprog, rfl⟩, rfl, ?_, ho⟩
  rw [← hr]
  rcases hc with rfl | rfl
  · rfl
  · rfl

/-- The outcome of a read transaction is that of its job. -/
theorem outcome_readStarted (launch : Launch) (trans : TabTransaction ρ) {c : TransactionType}
    (hc : c = transRecvMatch ∨ c = transRecvTabletInfo) (t : Trace) :
    (readStarted self owner forCode launch trans c).outcome parse t =
      (readStarted self owner forCode launch trans c).handleAfter parse t := by
  have hresult : internalRead.result? = none := rfl
  cases launch with
  | async => rfl
  | deferred =>
      have hwait : handleTransResult parse (readStarted self owner forCode .deferred trans c) =
          .error .waiting := by
        rcases hc with rfl | rfl
        · rfl
        · rfl
      unfold TabTransaction.outcome
      rw [hwait]
      rfl

/-- A write code starts `internalWrite` with what its case puts together. -/
theorem initReadyTransaction_write (launch : Launch) (readWholeFile : Files)
    (trans : TabTransaction ρ) {c : TransactionType}
    (hc : c = transSendLocalDb ∨ c = transSendLocalDbHash) :
    ∃ data success, initReadyTransaction self launch readWholeFile owner forCode
        (trans.read self c) =
      { trans with
        parent := some self
        transactionType := c
        data := some ⟨launch = .async, self, self, internalWrite data, owner, forCode⟩
        batmanTrans := false
        success
        writeTransaction := true } ∧ writeData readWholeFile c = some data := by
  rcases hc with rfl | rfl
  · exact ⟨_, _, rfl, rfl⟩
  · exact ⟨_, _, rfl, rfl⟩

/--
**Both launches agree** on a transaction that was handled after its job had run on its
own, exactly when it is a read transaction, or its job could send nothing.
-/
theorem outcome_deferred_iff (readWholeFile : Files) (trans : TabTransaction ρ)
    (c : TransactionType) (t : Trace) (o : Outcome)
    (hc : c ∈ [transRecvMatch, transRecvTabletInfo, transSendLocalDb, transSendLocalDbHash])
    (h : (initReadyTransaction self .async readWholeFile owner forCode
      (trans.read self c)).outcome parse t = some o) :
    (initReadyTransaction self .deferred readWholeFile owner forCode
        (trans.read self c)).outcome parse t = some o ↔
      (c = transRecvMatch ∨ c = transRecvTabletInfo) ∨ ∀ e ∈ t, TakesNothing e.1 e.2 := by
  have hkind : (c = transRecvMatch ∨ c = transRecvTabletInfo) ∨
      (c = transSendLocalDb ∨ c = transSendLocalDbHash) := by
    simpa [or_assoc] using hc
  rcases hkind with hread | hwrite
  · have hpos : 0 < c := by
      rcases hread with rfl | rfl
      · decide
      · decide
    have hstart : ∀ launch, initReadyTransaction self launch readWholeFile owner forCode
        (trans.read self c) = readStarted self owner forCode launch trans c := fun launch =>
      initReadyTransaction_of_pos self self launch readWholeFile owner forCode trans hpos
    rw [hstart, outcome_readStarted _ _ _ _ _ _ hread] at h ⊢
    exact iff_of_true (handleAfter_readStarted parse self owner forCode .deferred hread h)
      (Or.inl hread)
  · obtain ⟨data, success, hstart, hdata⟩ := initReadyTransaction_write self owner forCode .async
      readWholeFile trans hwrite
    obtain ⟨data', success', hstart', hdata'⟩ := initReadyTransaction_write self owner forCode
      .deferred readWholeFile trans hwrite
    rw [hdata] at hdata'
    cases hdata'
    have hnotread : ¬ (c = transRecvMatch ∨ c = transRecvTabletInfo) := by
      rcases hwrite with rfl | rfl
      · decide
      · decide
    -- on its own, the job runs and nothing is handled; deferred, it never runs
    rw [hstart] at h
    rw [hstart', or_iff_right hnotread]
    obtain ⟨trans₁, res, r, ht, _, hr, ho⟩ := (handleAfter_eq_some parse).mp h
    obtain ⟨s, prog, hs, hprog, htrans⟩ := afterCalls_eq_some.mp ht
    cases Option.some.inj hs
    subst htrans
    have hr' : r.statements = [] ∧ r.name = none := by
      cases hr
      exact ⟨rfl, rfl⟩
    rw [← sent_eq_nil_iff hprog, ho, hr'.1, hr'.2]
    show some (Outcome.mk [] [] none) = some (Outcome.mk (sent t) [] none) ↔ sent t = []
    constructor
    · intro heq
      exact (congrArg Outcome.sent (Option.some.inj heq)).symm
    · intro hnil
      rw [hnil]

end

theorem outcome_deferred_iff_name :
    (initReadyTransaction 0 .deferred (fun _ => []) 0 1 (TabTransaction.init.read 0
      transRecvTabletInfo)).outcome (fun _ => none) (readCalls (bytes "red")) =
        some ⟨ack ++ ack, [], some (bytes "red")⟩ ↔
      (transRecvTabletInfo = transRecvMatch ∨ transRecvTabletInfo = transRecvTabletInfo) ∨
        ∀ e ∈ readCalls (bytes "red"), TakesNothing e.1 e.2 :=
  outcome_deferred_iff (fun _ => none) 0 0 1 (fun _ => []) .init transRecvTabletInfo _ _
    (by decide) (by decide +kernel)

/-- The calls of a write transfer in which everything goes at once. -/
def writeCalls (data : List Byte) : Trace :=
  let readAckCalls : Trace :=
    [⟨.malloc 3, true⟩, ⟨.getTime none, (0 : Rat)⟩, ⟨.malloc 3, true⟩, ⟨.recv 3, .ret ack⟩,
      ⟨.getTime none, (0 : Rat)⟩, ⟨.getTime (some 10), (0 : Rat)⟩, ⟨.setSuccess true, ()⟩]
  [⟨.setSuccess true, ()⟩, ⟨.send (le32 data.length), .ret 4⟩, ⟨.setSuccess true, ()⟩] ++
    readAckCalls ++ [⟨.send data, .ret data.length⟩, ⟨.setSuccess true, ()⟩] ++ readAckCalls

/-- A deferred job that is to send the local database never runs. -/
theorem sendLocalDb_deferred : ¬ ∀ (parse : List Byte → Option Json) (readWholeFile : Files)
    (c : TransactionType) (t : Trace) (o : Outcome),
    c ∈ [transRecvMatch, transRecvTabletInfo, transSendLocalDb, transSendLocalDbHash] →
    (initReadyTransaction 0 .async readWholeFile 0 1 (TabTransaction.init.read 0 c)).outcome parse
      t = some o →
    (initReadyTransaction 0 .deferred readWholeFile 0 1 (TabTransaction.init.read 0 c)).outcome
      parse t = some o := by
  intro hall
  have h := hall (fun _ => none) (fun _ => []) transSendLocalDb (writeCalls (bytes "\n"))
    ⟨le32 1 ++ bytes "\n", [], none⟩ (by decide) (by decide +kernel)
  exact absurd h (by decide +kernel)

end ScoutComputer
