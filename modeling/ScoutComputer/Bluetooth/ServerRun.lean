import Mathlib.Data.List.InsertIdx
import ScoutComputer.Bluetooth.ConductorProof
import ScoutComputer.Bluetooth.ServerProof

/-!
# The main thread keeps the invariant

One lemma for each piece of code the main thread runs between two calls, and one for
every change of the table; together with `Inv.job` they make the step lemma.
-/

namespace ScoutComputer

open Interact

/-- A tablet that is undergoing a transaction is passed over. -/
theorem serveTablet_spec (b : Bool) : Spec Bluetooth.unobserved (serveTablet b) ()
    (fun _ => True) fun _ r => b = true → r = none := by
  cases b with
  | false =>
      refine (Spec.trivial _ ()).mono (fun _ h => h) fun _ _ _ _ h => ?_
      exact absurd h Bool.false_ne_true
  | true =>
      refine Spec.bind (Spec.trivial readyToRead ()) fun _ ready _ => ?_
      rw [if_pos (Bool.or_true _)]
      exact Spec.ret trivial fun _ => rfl

/-- Which codes get a job of their own, and what that job works on. -/
theorem initReadyTransaction_read {ρ : Type} (self : ρ) (launch : Launch) (readWholeFile : Files)
    (owner forCode : Nat) (c : TransactionType) (trans : TabTransaction ρ) :
    ∃ data batmanTrans success writeTransaction,
      initReadyTransaction self launch readWholeFile owner forCode (trans.read self c) =
        ⟨some self, c, data, batmanTrans, success, writeTransaction⟩ ∧
      (startsJob c = true ∧ (∃ prog, data =
          some ⟨launch = .async, self, self, prog, owner, forCode⟩) ∨
        startsJob c = false ∧ data = trans.data) := by
  by_cases hpos : 0 < c
  · rw [initReadyTransaction_of_pos self self launch readWholeFile owner forCode trans hpos]
    exact ⟨_, _, _, _, rfl, Or.inl ⟨by simp [startsJob, hpos], internalRead, rfl⟩⟩
  · rcases eq_or_ne c transSendLocalDb with hdb | hdb
    · subst hdb
      exact ⟨_, _, _, _, rfl, Or.inl ⟨rfl, _, rfl⟩⟩
    · rcases eq_or_ne c transSendLocalDbHash with hhash | hhash
      · subst hhash
        exact ⟨_, _, _, _, rfl, Or.inl ⟨rfl, _, rfl⟩⟩
      · have hno : startsJob c = false := by simp [startsJob, hpos, hdb, hhash]
        have hdata : writeData readWholeFile (trans.read self c).transactionType = none := by
          show writeData readWholeFile c = none
          unfold writeData
          rw [if_neg hdb, if_neg hhash]
        unfold initReadyTransaction
        split
        · exact ⟨_, _, _, _, rfl, Or.inr ⟨hno, rfl⟩⟩
        · rename_i hbye
          have hneg : c < 0 := by
            have hne : c.toInt ≠ 0 := fun h => hbye (Or.inr (Int8.toInt_inj.mp h))
            rw [Int8.lt_iff_toInt_lt] at hpos ⊢
            have hz : (0 : Int8).toInt = 0 := rfl
            omega
          have hw : (trans.read self c).writeTransaction = true :=
            decide_eq_true ⟨hneg, fun h => hbye (Or.inl h)⟩
          rw [if_pos hw]
          unfold handleWriteTransactions
          rw [hdata]
          exact ⟨_, _, _, _, rfl, Or.inr ⟨hno, rfl⟩⟩

namespace Bluetooth

variable {ρ : Type} {A : Addressing ρ} {w w' : Bluetooth ρ}

/-! ## A tablet is served -/

theorem keepsPlace_serve (self : ρ) (launch : Launch) (readWholeFile : Files)
    (c : TransactionType) : KeepsPlace (serve self launch readWholeFile c) := fun _ => ⟨rfl, rfl⟩

/-- A pointer that was just made resolves. -/
theorem resolve_pointer (hn : w.sockets.Nodup) {i : Nat} {t : BtTabObj ρ}
    (ht : w.connectedTablets[i]? = some t) : w.resolve A (w.pointer A i) = some t.serial := by
  obtain ⟨hi, _⟩ := List.getElem?_eq_some_iff.mp ht
  have hlen : i < w.sockets.length := by
    rw [sockets, List.length_map]
    exact hi
  unfold resolve index pointer
  rw [A.find_addr hn hlen, Option.bind_some, serials, List.getElem?_map, ht]
  rfl

theorem serve_tabOk {resolve : ρ → Option Nat} {a : Prop} {t : BtTabObj ρ} {self : ρ}
    (hold : ∀ s, t.currTrans.data = some s → s.forCode ≤ t.codesRead)
    (hstop : t.jobRunning = false) (hself : resolve self = some t.serial) (ha : a)
    (launch : Launch) (readWholeFile : Files) (c : TransactionType) :
    TabOk resolve a (serve self launch readWholeFile c t) := by
  obtain ⟨data, batmanTrans, success, writeTransaction, heq, hdata⟩ := initReadyTransaction_read
    self launch readWholeFile t.serial (t.codesRead + 1) c t.currTrans
  have hserve : serve self launch readWholeFile c t = { t with
      codesRead := t.codesRead + 1
      currTrans := ⟨some self, c, data, batmanTrans, success, writeTransaction⟩ } := by
    unfold serve
    rw [heq]
  rw [hserve]
  rcases hdata with ⟨hstart, prog, hdata⟩ | ⟨hstart, hdata⟩
  · subst hdata
    refine ⟨fun hna => absurd ha hna, fun _ => ⟨self, rfl, hself⟩, ?_, ?_, ?_, ?_⟩
    · intro _ s hs _
      cases Option.some.inj hs
      exact ⟨rfl, hself, hself⟩
    · intro s hs hne
      cases Option.some.inj hs
      exact absurd rfl hne
    · intro s hs
      cases Option.some.inj hs
      exact Nat.le_refl _
    · intro _
      exact ⟨fun _ => hstart, fun _ => rfl⟩
  · subst hdata
    refine ⟨fun hna => absurd ha hna, fun _ => ⟨self, rfl, hself⟩, ?_, fun _ _ _ => hstop, ?_, ?_⟩
    · intro _ s hs hc
      have hle := hold s hs
      have hc : s.forCode = t.codesRead + 1 := hc
      omega
    · intro s hs
      exact Nat.le_succ_of_le (hold s hs)
    · intro _
      constructor
      · intro hc
        obtain ⟨s, hs, hcode⟩ := Option.map_eq_some_iff.mp hc
        have hle := hold s hs
        have hcode : s.forCode = t.codesRead + 1 := hcode
        omega
      · intro hc
        rw [hstart] at hc
        exact Bool.noConfusion hc

/-- Once the calls for a tablet are over, it is passed over or served. -/
theorem Inv.polled (h : Inv A w) {i : Nat} {p : Job (Option TransactionType)}
    {launch : Launch} {readWholeFile : Files} (hpc : w.pc = .polling i p)
    {r : Option TransactionType} (hr : p.result? = some r)
    (hw : w.polled A launch readWholeFile i r = some w') : Inv A w' := by
  have hpcok := h.pc
  rw [hpc] at hpcok
  obtain ⟨t, ht, hspec⟩ := hpcok
  have hp : p = .ret r := Prog.result?_eq_some.mp hr
  subst hp
  cases r with
  | none =>
      cases hw
      exact h.goto (by rw [hpc]; rfl) trivial
  | some c =>
      obtain ⟨t', ht', hstop, rfl⟩ := polled_some hw
      rw [ht] at ht'
      cases ht'
      have hfree : t.transactionState = false := by
        cases hb : t.transactionState with
        | false => rfl
        | true => exact absurd (hspec.post_of hb) (by simp)
      have hok := h.tablet i t ht
      have hself := resolve_pointer (A := A) h.sockets ht
      refine h.update ht (keepsPlace_serve _ _ _ _) ?_ ?_ h.entry h.once ?_ ?_ h.log
      · exact serve_tabOk hok.old hstop hself (Or.inr rfl) launch readWholeFile c
      · intro j hj
        rw [hpc]
        constructor
        · intro hf
          exact absurd (Option.some.inj hf).symm hj
        · intro hf
          exact absurd hf (by simp [Pc.focus])
      · intro n
        exact (h.busy n).trans (busy_modifyAt (keepsPlace_serve _ _ _ _) (fun _ => rfl) w i n).symm
      · refine ⟨serve (w.pointer A i) launch readWholeFile c t, ?_, hfree, ?_⟩
        · show (w.modifyAt i _).connectedTablets[i]? = _
          rw [modifyAt_get, if_pos rfl, ht]
          rfl
        · show (w.modifyAt i _).resolve A _ = _
          rw [(sameTable_modifyAt (keepsPlace_serve _ _ _ _) w i).resolve]
          exact hself

/-! ## Tablets come and go -/

/-- No pointer to a tablet that is undergoing a transaction goes astray. -/
def KeepsPointers (A : Addressing ρ) (w w' : Bluetooth ρ) : Prop :=
  ∀ t ∈ w.connectedTablets, t.transactionState = true → ∀ p, w.resolve A p = some t.serial →
    w'.resolve A p = some t.serial

theorem Inv.retable (h : Inv A w) (hs : w'.sockets.Nodup) (hn : w'.serials.Nodup)
    (hfresh : ∀ n ∈ w'.serials, n < w'.accepted)
    (hmem : ∀ t ∈ w'.connectedTablets,
      (∃ j, w.connectedTablets[j]? = some t ∧ w.pc.focus ≠ some j) ∨
      (t.transactionState = false ∧ t.currTrans.data = none ∧ t.serial ∉ w.serials))
    (hkeep : KeepsPointers A w w') (hqueue : w'.runningTransactions = w.runningTransactions)
    (hfocus : w'.pc.focus = none) (hpc : PcOk A w' w'.pc)
    (hlog : ∀ e ∈ w'.log, e.OwnTablet ∧ e.CurrentIff) : Inv A w' := by
  -- an entry is about a busy tablet, and pointers to those are kept
  have hentry : ∀ e ∈ w.runningTransactions, w'.resolve A e.trans = some e.owner := by
    intro e he
    obtain ⟨t, ht, hts, hb⟩ := busy_iff.mp ((h.busy e.owner).mp (List.mem_map_of_mem he))
    rw [← hts]
    refine hkeep t ht hb e.trans ?_
    rw [hts]
    exact h.entry e he
  refine ⟨hs, hn, hfresh, ?_, ?_, ?_, ?_, hpc, hlog⟩
  · intro j t ht
    rcases hmem t (List.mem_of_getElem? ht) with ⟨k, hk, hf⟩ | ⟨hb, hd, _⟩
    · -- a tablet that was there before: only the busy ones were active
      have hold : active w.pc k t ↔ t.transactionState = true := or_iff_left hf
      have hnew : active w'.pc j t ↔ t.transactionState = true := by
        unfold active
        rw [hfocus]
        exact or_iff_left (by simp)
      refine (h.tablet k t hk).mono (hnew.trans hold.symm) fun ha p hp => ?_
      exact hkeep t (List.mem_of_getElem? hk) (hold.mp ha) p hp
    · -- a tablet that has just joined
      have hna : ¬ active w'.pc j t := by
        unfold active
        rw [hfocus, hb]
        simp
      refine .atRest hna ?_ ?_
      · unfold BtTabObj.jobRunning
        rw [hd]
      · intro s hs
        rw [hd] at hs
        exact absurd hs (by simp)
  · rw [hqueue]
    exact hentry
  · rw [hqueue]
    exact h.once
  · intro n
    rw [hqueue]
    constructor
    · intro hm
      obtain ⟨e, he, hen⟩ := List.mem_map.mp hm
      obtain ⟨t, ht, hts, hb⟩ := busy_iff.mp ((h.busy n).mp hm)
      obtain ⟨i, u, _, hu, hus⟩ := exists_of_resolve (hentry e he)
      rw [hen] at hus
      refine busy_iff.mpr ⟨u, List.mem_of_getElem? hu, hus, ?_⟩
      rcases hmem u (List.mem_of_getElem? hu) with ⟨k, hk, _⟩ | ⟨_, _, hnot⟩
      · obtain ⟨j, hj⟩ := List.mem_iff_getElem?.mp ht
        obtain ⟨_, htu⟩ := eq_of_serial h.serials hj hk (hts.trans hus.symm)
        rw [← htu]
        exact hb
      · refine absurd ?_ hnot
        rw [hus, ← hts]
        exact List.mem_map_of_mem ht
    · intro hb
      obtain ⟨u, hu, hus, hub⟩ := busy_iff.mp hb
      rcases hmem u hu with ⟨k, hk, _⟩ | ⟨hfree, _⟩
      · exact (h.busy n).mpr (busy_iff.mpr ⟨u, List.mem_of_getElem? hk, hus, hub⟩)
      · rw [hfree] at hub
        exact Bool.noConfusion hub

/-- What `acceptConn` does with a new connection. -/
theorem acceptConn_eq_some {socket : Socket} {mac : List Byte} {grow : Nat}
    (h : w.acceptConn (some (socket, mac)) grow = some w') :
    socket ∉ w.sockets ∧
      w'.connectedTablets = w.connectedTablets ++ [.ofSocket w.accepted socket mac] ∧
      w'.sockets = w.sockets ++ [socket] ∧ w'.serials = w.serials ++ [w.accepted] ∧
      w'.accepted = w.accepted + 1 ∧ w'.runningTransactions = w.runningTransactions ∧
      w'.log = w.log ∧ (w.connectedTablets.length < w.capacity → w'.buf = w.buf) := by
  unfold acceptConn at h
  dsimp only at h
  by_cases hm : socket ∈ w.sockets
  · rw [if_pos hm] at h
    exact absurd h (by simp)
  · rw [if_neg hm] at h
    by_cases hlt : w.connectedTablets.length < w.capacity
    · rw [if_pos hlt] at h
      cases h
      exact ⟨hm, rfl, List.map_append, List.map_append, rfl, rfl, rfl, fun _ => rfl⟩
    · rw [if_neg hlt] at h
      cases h
      exact ⟨hm, rfl, List.map_append, List.map_append, rfl, rfl, rfl, fun hlt' => absurd hlt' hlt⟩

theorem acceptConn_sockets_nodup (hn : w.sockets.Nodup) {peer : Option (Socket × List Byte)}
    {grow : Nat} (h : w.acceptConn peer grow = some w') : w'.sockets.Nodup := by
  cases peer with
  | none =>
      cases h
      exact hn
  | some peer =>
      obtain ⟨hnew, _, hsockets, _⟩ := acceptConn_eq_some h
      rw [hsockets]
      exact List.nodup_append'.mpr ⟨hn, List.nodup_singleton _, by simpa using hnew⟩

theorem Inv.accept (h : Inv A w) {peer : Option (Socket × List Byte)} {grow : Nat}
    (hpc : w.pc = .idle) (hw : w.acceptConn peer grow = some w')
    (hkeep : KeepsPointers A w w') : Inv A (w'.goto (.ready 0)) := by
  have hs := acceptConn_sockets_nodup h.sockets hw
  cases peer with
  | none =>
      cases hw
      exact h.goto (by rw [hpc]; rfl) trivial
  | some peer =>
      obtain ⟨hnew, htab, hsockets, hserials, hacc, hqueue, hlog, _⟩ := acceptConn_eq_some hw
      have hunused : w.accepted ∉ w.serials := fun hm => Nat.lt_irrefl _ (h.fresh _ hm)
      refine h.retable hs ?_ ?_ ?_ hkeep hqueue rfl trivial ?_
      · show w'.serials.Nodup
        rw [hserials]
        exact List.nodup_append'.mpr ⟨h.serials, List.nodup_singleton _, by simpa using hunused⟩
      · show ∀ n ∈ w'.serials, n < w'.accepted
        rw [hserials, hacc]
        intro n hn
        rcases List.mem_append.mp hn with hn | hn
        · exact Nat.lt_succ_of_lt (h.fresh n hn)
        · rw [List.mem_singleton.mp hn]
          exact Nat.lt_succ_self _
      · show ∀ t ∈ w'.connectedTablets, _
        rw [htab]
        intro t ht
        rcases List.mem_append.mp ht with ht | ht
        · obtain ⟨j, hj⟩ := List.mem_iff_getElem?.mp ht
          refine Or.inl ⟨j, hj, ?_⟩
          rw [hpc]
          simp [Pc.focus]
        · rw [List.mem_singleton.mp ht]
          exact Or.inr ⟨rfl, rfl, hunused⟩
      · show ∀ e ∈ w'.log, _
        rw [hlog]
        exact h.log

/-- A tablet that is not undergoing a transaction leaves. -/
theorem Inv.erase (h : Inv A w) {i : Nat} (pc : Pc ρ)
    (hfocus : ∀ j, j ≠ i → w.pc.focus ≠ some j)
    (hpc : pc.focus = none) (hok : ∀ w : Bluetooth ρ, PcOk A w pc) {n : Nat}
    (hkeep : KeepsPointers A w { w with connectedTablets := w.connectedTablets.eraseIdx i }) :
    Inv A (({ w with connectedTablets := w.connectedTablets.eraseIdx i }.note
      (.closed n)).goto pc) := by
  have hserials : ({ w with connectedTablets := w.connectedTablets.eraseIdx i } :
      Bluetooth ρ).serials = w.serials.eraseIdx i := (List.eraseIdx_map _ _ _).symm
  have hsockets : ({ w with connectedTablets := w.connectedTablets.eraseIdx i } :
      Bluetooth ρ).sockets = w.sockets.eraseIdx i := (List.eraseIdx_map _ _ _).symm
  refine h.retable ?_ ?_ ?_ ?_ hkeep rfl hpc (hok _) ?_
  · show ({ w with connectedTablets := w.connectedTablets.eraseIdx i } : Bluetooth ρ).sockets.Nodup
    rw [hsockets]
    exact h.sockets.eraseIdx i
  · show ({ w with connectedTablets := w.connectedTablets.eraseIdx i } : Bluetooth ρ).serials.Nodup
    rw [hserials]
    exact h.serials.eraseIdx i
  · intro m hm
    have hm : m ∈ ({ w with connectedTablets := w.connectedTablets.eraseIdx i } :
      Bluetooth ρ).serials := hm
    rw [hserials] at hm
    exact h.fresh m (List.mem_of_mem_eraseIdx hm)
  · intro t ht
    obtain ⟨j, hj, ht⟩ := List.mem_eraseIdx_iff_getElem?.mp ht
    exact Or.inl ⟨j, ht, hfocus j hj⟩
  · exact (h.note (e := .closed n) ⟨trivial, trivial⟩).log

/-- What `killSocket` does. -/
theorem killSocket_eq_some {s : Socket} (h : w.killSocket s = some w') :
    w.findSocket s = none ∧ w' = w ∨ ∃ i t, w.findSocket s = some i ∧
      w.connectedTablets[i]? = some t ∧ t.jobRunning = false ∧
      w' = { w with connectedTablets := w.connectedTablets.eraseIdx i }.note (.closed t.serial) := by
  unfold killSocket at h
  cases hf : w.findSocket s with
  | none =>
      rw [hf] at h
      exact Or.inl ⟨rfl, (Option.some.inj h).symm⟩
  | some i =>
      rw [hf] at h
      dsimp only at h
      split at h
      · exact absurd h (by simp)
      · rename_i t ht
        split at h
        · exact absurd h (by simp)
        · rename_i hj
          exact Or.inr ⟨i, t, rfl, ht, Bool.eq_false_iff.mpr hj, (Option.some.inj h).symm⟩

theorem findSocket_of_get (hn : w.sockets.Nodup) {i : Nat} {t : BtTabObj ρ}
    (ht : w.connectedTablets[i]? = some t) : w.findSocket t.socket = some i := by
  have hget : w.sockets[i]? = some t.socket := by
    rw [sockets, List.getElem?_map, ht]
    rfl
  obtain ⟨hi, hget⟩ := List.getElem?_eq_some_iff.mp hget
  unfold findSocket
  rw [← hget, if_pos (List.getElem_mem hi), hn.idxOf_getElem]

theorem Inv.killSocket (h : Inv A w) {s : Socket} (hpc : w.pc = .idle)
    (hw : w.killSocket s = some w') (hkeep : KeepsPointers A w w') : Inv A w' := by
  rcases killSocket_eq_some hw with ⟨_, hw'⟩ | ⟨i, t, _, _, _, hw'⟩
  · rw [hw']
    exact h
  · subst hw'
    have hidle := h.erase .idle (i := i) (n := t.serial) (by simp [hpc, Pc.focus]) rfl
      (fun _ => trivial) hkeep
    unfold Bluetooth.goto at hidle
    rw [← hpc] at hidle
    exact hidle

theorem Inv.killAllSockets (h : Inv A w) (hpc : w.pc = .idle)
    (hw : w.killAllSockets = some w') (hkeep : KeepsPointers A w w') : Inv A w' := by
  unfold Bluetooth.killAllSockets at hw
  split at hw
  · exact absurd hw (by simp)
  · cases hw
    refine h.retable List.nodup_nil List.nodup_nil ?_ ?_ hkeep rfl ?_ ?_ ?_
    · intro n hn
      exact absurd hn List.not_mem_nil
    · intro t ht
      exact absurd ht List.not_mem_nil
    · show w.pc.focus = none
      rw [hpc]
      rfl
    · show PcOk A _ w.pc
      rw [hpc]
      trivial
    · intro e he
      rcases List.mem_append.mp he with he | he
      · exact h.log e he
      · obtain ⟨t, _, rfl⟩ := List.mem_map.mp he
        exact ⟨trivial, trivial⟩

/-! ## A transaction that was started -/

/-- A future that does not report a timeout has no job under way. -/
theorem jobRunning_of_isReady {t : BtTabObj ρ} (h : t.currTrans.isReady = some true) :
    t.jobRunning = false := by
  obtain ⟨s, hs, hready⟩ := Option.map_eq_some_iff.mp h
  unfold SharedState.isReady at hready
  unfold BtTabObj.jobRunning
  rw [hs]
  dsimp only
  rcases (Bool.or_eq_true _ _).mp hready with hst | hr
  · have hst : s.started = false := by simpa using hst
    rw [hst, Bool.false_and]
  · rw [← Option.not_isSome, hr, Bool.not_true, Bool.and_false]

theorem Inv.consult (h : Inv A w) {i : Nat} {t : BtTabObj ρ}
    (ht : w.connectedTablets[i]? = some t) (hact : active w.pc i t) : Inv A (w.consult t) := by
  refine h.note ⟨trivial, ?_⟩
  have hcur := (h.tablet i t ht).current hact
  show (t.currTrans.data.map (·.forCode) == some t.codesRead) = startsJob t.currTrans.transactionType
  rw [Bool.eq_iff_iff, beq_iff_eq]
  exact hcur

/-- The transaction is queued, and its tablet is undergoing it. -/
theorem Inv.push (h : Inv A w) {i : Nat} {q : ρ} {t : BtTabObj ρ} (hpc : w.pc = .started i q)
    (ht : w.connectedTablets[i]? = some t) (hfree : t.transactionState = false)
    (hq : w.resolve A q = some t.serial) :
    Inv A { w.modifyAt i (setTransactionState true) with
      runningTransactions := w.runningTransactions ++ [QueueEntry.mk q t.serial]
      pc := .ready (i + 1) } := by
  have hok := h.tablet i t ht
  have hact : active w.pc i t := Or.inr (by rw [hpc]; rfl)
  have hplace : KeepsPlace (ρ := ρ) (setTransactionState true) := fun _ => ⟨rfl, rfl⟩
  have hnot : t.serial ∉ w.runningTransactions.map (·.owner) := by
    rw [h.busy, busy_serial h.serials ht, hfree]
    exact Bool.false_ne_true
  refine h.update ht hplace ?_ ?_ ?_ ?_ ?_ trivial h.log
  · exact ⟨fun hna => absurd (Or.inl rfl) hna, fun _ => hok.parent hact, fun _ => hok.job hact,
      hok.stale, hok.old, fun _ => hok.current hact⟩
  · intro j hj
    rw [hpc]
    constructor
    · intro hf
      exact absurd hf (by simp [Pc.focus])
    · intro hf
      exact absurd (Option.some.inj hf).symm hj
  · intro e he
    rcases List.mem_append.mp he with he | he
    · exact h.entry e he
    · rw [List.mem_singleton.mp he]
      exact hq
  · rw [List.map_append]
    exact List.nodup_append'.mpr ⟨h.once, List.nodup_singleton _, by simpa using hnot⟩
  · intro n
    rw [List.map_append, List.mem_append, h.busy]
    by_cases hn : n = t.serial
    · subst hn
      have hb : (w.modifyAt i (setTransactionState true)).Busy t.serial := by
        refine busy_iff.mpr ⟨setTransactionState true t, ?_, rfl, rfl⟩
        refine List.mem_of_getElem? (i := i) ?_
        rw [modifyAt_get, if_pos rfl, ht]
        rfl
      exact iff_of_true (Or.inr (List.mem_singleton.mpr rfl)) hb
    · rw [busy_modifyAt_ne hplace ht hn]
      exact or_iff_left fun hm => hn (List.mem_singleton.mp hm)

/-- A tablet that said goodbye is killed. -/
theorem Inv.startedTrans_goodbye (h : Inv A w) {i : Nat} {q : ρ} {t : BtTabObj ρ}
    (hpc : w.pc = .started i q) (hderef : w.deref A q = some t)
    (hbatman : t.currTrans.batmanTrans = true) (hw : w.startedTrans A i q = some w') :
    w.connectedTablets[i]? = some t ∧ t.transactionState = false ∧
      w.findSocket t.socket = some i ∧ t.jobRunning = false ∧
      w' = ({ w with connectedTablets := w.connectedTablets.eraseIdx i }.note
        (.closed t.serial)).goto (.ready (i + 1)) := by
  have hpcok := h.pc
  rw [hpc] at hpcok
  obtain ⟨u, hu, hfree, hq⟩ := hpcok
  have hsame := (deref_of_resolve h.serials hq hu rfl).2
  rw [hderef] at hsame
  cases hsame
  obtain ⟨p, hparent, hp⟩ := (h.tablet i t hu).parent (Or.inr (by rw [hpc]; rfl))
  unfold Bluetooth.startedTrans at hw
  rw [hderef] at hw
  dsimp only at hw
  rw [if_pos hbatman, hparent, Option.bind_some, (deref_of_resolve h.serials hp hu rfl).2] at hw
  obtain ⟨w₁, hw₁, rfl⟩ := Option.map_eq_some_iff.mp hw
  have hfind := findSocket_of_get h.sockets hu
  rcases killSocket_eq_some hw₁ with ⟨hnone, _⟩ | ⟨j, t', hj, ht', hstop, rfl⟩
  · rw [hfind] at hnone
    exact absurd hnone (by simp)
  · rw [hfind] at hj
    cases hj
    rw [hu] at ht'
    cases ht'
    exact ⟨hu, hfree, hfind, hstop, rfl⟩

theorem Inv.startedTrans (h : Inv A w) {i : Nat} {q : ρ} (hpc : w.pc = .started i q)
    (hw : w.startedTrans A i q = some w')
    (hkeep : ∀ t, w.deref A q = some t → t.currTrans.batmanTrans = true →
      KeepsPointers A w w') : Sound A w' := by
  have hpcok := h.pc
  rw [hpc] at hpcok
  obtain ⟨t, ht, hfree, hq⟩ := hpcok
  have hact : active w.pc i t := Or.inr (by rw [hpc]; rfl)
  obtain ⟨parent, hparent, hres⟩ := (h.tablet i t ht).parent hact
  have hderef := (deref_of_resolve h.serials hq ht rfl).2
  cases hbatman : t.currTrans.batmanTrans with
  | true =>
    have hk := hkeep t hderef hbatman
    obtain ⟨_, _, _, _, rfl⟩ := h.startedTrans_goodbye hpc hderef hbatman hw
    refine Or.inl (h.erase (.ready (i + 1)) ?_ rfl (fun _ => trivial) hk)
    intro j hj hf
    rw [hpc] at hf
    exact hj (Option.some.inj hf).symm
  | false =>
    have h₁ := h.consult ht hact
    have hindex := (deref_of_resolve h.serials hres ht rfl).1
    rcases startedTrans_stays hderef hbatman hparent hindex hw with rfl | ⟨hready, rfl⟩ | rfl
    · exact h₁.crash
    · refine Or.inl (h₁.goto ?_ ?_)
      · show _ = w.pc.focus
        rw [hpc]
        rfl
      · refine ⟨i, ⟨t, ht, rfl, hq, fun _ => jobRunning_of_isReady hready⟩, rfl, fun hb => ?_⟩
        have hb := (busy_serial h.serials ht).mp hb
        rw [hfree] at hb
        exact Bool.noConfusion hb
    · exact Or.inl (h₁.push hpc ht hfree hq)

/-! ## A result that is handled -/

/-- Changing a tablet does not depend on the queue and the log. -/
theorem modify_with (w : Bluetooth ρ) (runningTransactions : List (QueueEntry ρ))
    (log : List Effect) (p : ρ) (f : BtTabObj ρ → BtTabObj ρ) :
    ({ w with runningTransactions, log } : Bluetooth ρ).modify A p f =
      { w.modify A p f with runningTransactions, log } := by
  have hindex : ({ w with runningTransactions, log } : Bluetooth ρ).index A p = w.index A p := rfl
  unfold modify
  rw [hindex]
  cases w.index A p with
  | none => rfl
  | some i => rfl

theorem modify_queue (w : Bluetooth ρ) (p : ρ) (f : BtTabObj ρ → BtTabObj ρ) :
    (w.modify A p f).runningTransactions = w.runningTransactions ∧
      (w.modify A p f).log = w.log := by
  unfold modify
  cases w.index A p with
  | none => exact ⟨rfl, rfl⟩
  | some i => exact ⟨rfl, rfl⟩

theorem note_modify (w : Bluetooth ρ) (e : Effect) (p : ρ) (f : BtTabObj ρ → BtTabObj ρ) :
    (w.note e).modify A p f = (w.modify A p f).note e := by
  obtain ⟨hqueue, hlog⟩ := modify_queue (A := A) w p f
  refine (modify_with w w.runningTransactions (w.log ++ [e]) p f).trans ?_
  unfold note
  rw [← hqueue, ← hlog]

/-- `handleTransResult` takes the data it needs, and leaves the rest of the transaction alone. -/
theorem handleTransResult_ok {parse : List Byte → Option Json} {trans : TabTransaction ρ}
    {r : Handled ρ} (h : handleTransResult parse trans = .ok r) :
    trans.needsGet = false ∧ r.trans = trans ∨
      trans.needsGet = true ∧ r.trans = { trans with data := none } := by
  have hget : ∀ v trans', trans.get = .ok (v, trans') → trans' = { trans with data := none } := by
    intro v trans' hg
    unfold TabTransaction.get at hg
    split at hg
    · exact absurd hg (by simp)
    · split at hg
      · exact absurd hg (by simp)
      · exact (congrArg Prod.snd (Except.ok.inj hg)).symm
  unfold handleTransResult at h
  split at h
  · rename_i hwrite
    cases h
    exact Or.inl ⟨by simp [TabTransaction.needsGet, hwrite], rfl⟩
  · rename_i hwrite
    split at h
    · rename_i htype
      refine Or.inr ⟨by simp [TabTransaction.needsGet, hwrite, htype], ?_⟩
      cases hg : trans.get with
      | error fault =>
          rw [hg] at h
          exact absurd h (by simp [bind, Except.bind])
      | ok res =>
          obtain ⟨v, trans'⟩ := res
          rw [hg] at h
          cases v with
          | none => exact absurd h (by simp [bind, Except.bind])
          | some vec =>
              simp only [bind, Except.bind] at h
              split at h
              · rw [← Except.ok.inj h]
                exact hget _ _ hg
              · rw [← Except.ok.inj h]
                exact hget _ _ hg
    · rename_i hmatch
      split at h
      · rename_i htype
        refine Or.inr ⟨by simp [TabTransaction.needsGet, hwrite, htype], ?_⟩
        cases hg : trans.get with
        | error fault =>
            rw [hg] at h
            exact absurd h (by simp [bind, Except.bind])
        | ok res =>
            rw [hg] at h
            rw [← Except.ok.inj h]
            exact hget _ _ hg
      · rename_i hinfo
        cases h
        exact Or.inl ⟨by simp [TabTransaction.needsGet, hmatch, hinfo], rfl⟩

/-- What a handled result leaves in the tablet. -/
def settle (r : Handled ρ) (t : BtTabObj ρ) : BtTabObj ρ :=
  { t with currTrans := r.trans, tabScoutingName := r.name.getD t.tabScoutingName }

theorem keepsPlace_settle (r : Handled ρ) : KeepsPlace (settle r) := fun _ => ⟨rfl, rfl⟩

/-- When all pointers are about the tablet at index `j`, so is everything that happens. -/
theorem handled_eq {j : Nat} {t : BtTabObj ρ} {q p : ρ} {r : Handled ρ} (hn : w.serials.Nodup)
    (ht : w.connectedTablets[j]? = some t) (hq : w.resolve A q = some t.serial)
    (hparent : r.trans.parent = some p) (hp : w.resolve A p = some t.serial) (caller : Caller) :
    ∃ log : List Effect, (∀ e ∈ log, e ∈ w.log ∨ e.OwnTablet ∧ e.CurrentIff) ∧
      w.handled A q t.serial caller r =
        match caller with
        | .ready i => { w.modifyAt j (settle r) with log, pc := .ready (i + 1) }
        | .running i => { w.modifyAt j (setTransactionState false ∘ settle r) with
            runningTransactions := w.runningTransactions.eraseIdx i, log, pc := .running (i + 1) } := by
  have hstore : KeepsPlace (store r.trans) := fun _ => ⟨rfl, rfl⟩
  -- whether or not the result names the tablet, one tablet has changed
  have hnamed : ∃ log : List Effect, (∀ e ∈ log, e ∈ w.log ∨ e.OwnTablet ∧ e.CurrentIff) ∧
      ((w.modifyAt j (store r.trans)).note (.submitted t.serial r.statements)).name A p t.serial
        r.name = { w.modifyAt j (settle r) with log } := by
    cases hname : r.name with
    | none =>
        have hsettle : settle r = store r.trans := by
          funext u
          unfold settle
          rw [hname]
          rfl
        refine ⟨w.log ++ [.submitted t.serial r.statements], ?_, ?_⟩
        · simp +contextual [Effect.OwnTablet, Effect.CurrentIff, or_imp]
        · rw [hsettle]
          rfl
    | some name =>
        have hsettle : settle r = setScoutingName name ∘ store r.trans := by
          funext u
          unfold settle
          rw [hname]
          rfl
        refine ⟨w.log ++ [.submitted t.serial r.statements] ++
          [.named (some t.serial) t.serial name], ?_, ?_⟩
        · simp +contextual [Effect.OwnTablet, Effect.CurrentIff, or_imp]
        · unfold Bluetooth.name
          dsimp only
          rw [note_modify, modify_modifyAt hn hp ht rfl hstore, ← hsettle]
          have hvia : ((w.modifyAt j (store r.trans)).note (.submitted t.serial
              r.statements)).resolve A p = some t.serial :=
            (congrFun (sameTable_modifyAt hstore w j).resolve p).trans hp
          rw [hvia]
          rfl
  obtain ⟨log, hlog, hnamed⟩ := hnamed
  unfold handled
  rw [modify_of_resolve hn hq ht rfl, hparent]
  dsimp only
  rw [hnamed]
  cases caller with
  | ready i => exact ⟨log, hlog, rfl⟩
  | running i =>
      refine ⟨log ++ [.released (some t.serial) t.serial], ?_, ?_⟩
      · intro e he
        rcases List.mem_append.mp he with he | he
        · exact hlog e he
        · rw [List.mem_singleton.mp he]
          exact Or.inr ⟨rfl, trivial⟩
      · -- only from the queue is the tablet set free
        have hset := keepsPlace_settle r
        have hvia : ({ w.modifyAt j (settle r) with log } : Bluetooth ρ).resolve A p =
            some t.serial := (congrFun (sameTable_modifyAt hset w j).resolve p).trans hp
        have hmod : (({ w.modifyAt j (settle r) with log } : Bluetooth ρ).erase i).modify A p
            (setTransactionState false) = { w.modifyAt j (setTransactionState false ∘ settle r) with
              runningTransactions := w.runningTransactions.eraseIdx i, log } := by
          refine (modify_with (w.modifyAt j (settle r)) (w.runningTransactions.eraseIdx i) log p
            _).trans ?_
          rw [modify_modifyAt hn hp ht rfl hset]
        dsimp only
        rw [hmod, hvia]
        rfl

/-- The tablet whose transaction is in `handleTransResult` is attended to. -/
theorem Inv.active_of_handling (h : Inv A w) {q : ρ} {owner : Nat} {caller : Caller}
    (hpc : w.pc = .handling q owner caller) {j : Nat} {t : BtTabObj ρ}
    (ht : w.connectedTablets[j]? = some t) (hs : t.serial = owner) : active w.pc j t := by
  have hpcok := h.pc
  rw [hpc] at hpcok
  obtain ⟨k, ⟨u, hu, hus, _, _⟩, hcaller⟩ := hpcok
  obtain ⟨rfl, rfl⟩ := eq_of_serial h.serials ht hu (hs.trans hus.symm)
  cases caller with
  | ready i => exact Or.inr (by rw [hpc, hcaller.1]; rfl)
  | running i =>
      have hm := List.mem_map_of_mem (f := (·.owner)) (List.mem_of_getElem? hcaller)
      rw [← hus] at hm
      exact Or.inl ((busy_serial h.serials ht).mp ((h.busy _).mp hm))

/-- After its result has been handled, a tablet is at rest. -/
theorem Inv.handled (h : Inv A w) {parse : List Byte → Option Json} {q : ρ} {owner : Nat}
    {caller : Caller} (hpc : w.pc = .handling q owner caller) {t : BtTabObj ρ}
    (hderef : w.deref A q = some t) {r : Handled ρ}
    (hr : handleTransResult parse t.currTrans = .ok r) : Inv A (w.handled A q owner caller r) := by
  have hpcok := h.pc
  rw [hpc] at hpcok
  obtain ⟨j, ⟨t', ht, rfl, hq, hstop⟩, hcaller⟩ := hpcok
  rw [(deref_of_resolve h.serials hq ht rfl).2] at hderef
  cases hderef
  have hok := h.tablet j t ht
  have hact := h.active_of_handling hpc ht rfl
  obtain ⟨p, hparent, hp⟩ := hok.parent hact
  -- what is left of the transaction
  have hrest : r.trans.parent = some p ∧ (settle r t).jobRunning = false ∧
      ∀ s, r.trans.data = some s → s.forCode ≤ t.codesRead := by
    rcases handleTransResult_ok hr with ⟨hget, htrans⟩ | ⟨_, htrans⟩
    · have hsame : (settle r t).jobRunning = t.jobRunning := by
        unfold BtTabObj.jobRunning settle
        rw [htrans]
      rw [htrans]
      exact ⟨hparent, hsame.trans (hstop hget), hok.old⟩
    · refine ⟨by rw [htrans]; exact hparent, ?_, fun s hs => ?_⟩
      · unfold BtTabObj.jobRunning settle
        rw [htrans]
      · rw [htrans] at hs
        exact absurd hs (by simp)
  obtain ⟨hparent', hstop', hold'⟩ := hrest
  obtain ⟨log, hlog, heq⟩ := handled_eq h.serials ht hq hparent' hp caller
  have hlog' : ∀ e ∈ log, e.OwnTablet ∧ e.CurrentIff := fun e he =>
    (hlog e he).elim (h.log e) id
  rw [heq]
  cases caller with
  | ready i =>
      obtain ⟨rfl, hfree⟩ := hcaller
      rw [busy_serial h.serials ht] at hfree
      refine h.update ht (keepsPlace_settle r) (.atRest ?_ hstop' hold') ?_ h.entry h.once ?_
        trivial hlog'
      · rintro (hb | hf)
        · exact hfree hb
        · exact absurd hf (by simp [Pc.focus])
      · intro k hk
        rw [hpc]
        constructor
        · intro hf
          exact absurd hf (by simp [Pc.focus])
        · intro hf
          exact absurd (Option.some.inj hf).symm hk
      · intro n
        exact (h.busy n).trans (busy_modifyAt (keepsPlace_settle r) (fun _ => rfl) w i n).symm
  | running i =>
      have hplace : KeepsPlace (setTransactionState false ∘ settle r) := fun _ => ⟨rfl, rfl⟩
      have hown : (w.runningTransactions.map (·.owner))[i]? = some t.serial := by
        rw [List.getElem?_map, hcaller]
        rfl
      refine h.update ht hplace (.atRest ?_ hstop' hold') ?_ ?_ ?_ ?_ trivial hlog'
      · rintro (hb | hf)
        · exact Bool.noConfusion hb
        · exact absurd hf (by simp [Pc.focus])
      · intro k _
        rw [hpc]
        exact Iff.rfl
      · intro e he
        exact h.entry e (List.mem_of_mem_eraseIdx he)
      · rw [← List.eraseIdx_map]
        exact h.once.eraseIdx i
      · intro n
        rw [← List.eraseIdx_map, Lists.mem_eraseIdx_of_nodup h.once hown, h.busy]
        by_cases hn : n = t.serial
        · subst hn
          have hserials : (w.modifyAt j (setTransactionState false ∘ settle r)).serials.Nodup :=
            (sameTable_modifyAt hplace w j).serials ▸ h.serials
          have hget := modifyAt_get w j (setTransactionState false ∘ settle r) j
          rw [if_pos rfl, ht] at hget
          have hb := busy_serial hserials hget
          exact iff_of_false (fun hc => hc.2 rfl) (fun hc => Bool.noConfusion (hb.mp hc))
        · rw [busy_modifyAt_ne hplace ht hn]
          exact and_iff_left hn

/-- Only a transaction whose result is needed has to wait. -/
theorem needsGet_of_waiting {parse : List Byte → Option Json} {trans : TabTransaction ρ}
    (h : handleTransResult parse trans = .error .waiting) : trans.needsGet = true := by
  unfold handleTransResult at h
  split at h
  · exact absurd h (by simp)
  · rename_i hwrite
    split at h
    · rename_i htype
      simp [TabTransaction.needsGet, hwrite, htype]
    · split at h
      · rename_i htype
        simp [TabTransaction.needsGet, hwrite, htype]
      · exact absurd h (by simp)

theorem startsJob_of_needsGet {trans : TabTransaction ρ} (h : trans.needsGet = true) :
    startsJob trans.transactionType = true := by
  unfold TabTransaction.needsGet at h
  rw [Bool.and_eq_true, Bool.or_eq_true] at h
  rcases h.2 with htype | htype
  · rw [of_decide_eq_true htype]
    rfl
  · rw [of_decide_eq_true htype]
    rfl

theorem Inv.handle (h : Inv A w) {parse : List Byte → Option Json} {q : ρ} {owner : Nat}
    {caller : Caller} (hpc : w.pc = .handling q owner caller)
    (hw : w.handle A parse q owner caller = some w') : Sound A w' := by
  have hpcok := h.pc
  rw [hpc] at hpcok
  obtain ⟨j, ⟨t, ht, rfl, hq, hstop⟩, hcaller⟩ := hpcok
  have hderef := (deref_of_resolve h.serials hq ht rfl).2
  have hact := h.active_of_handling hpc ht rfl
  rcases handle_cases hw with ⟨hno, _⟩ | ⟨t', w₁, hderef', hconsult, hcase⟩
  · rw [hderef] at hno
    exact absurd hno (by simp)
  rw [hderef] at hderef'
  cases hderef'
  have h₁ : Inv A w₁ := by
    rcases hconsult with rfl | rfl
    · exact h
    · exact h.consult ht hact
  obtain ⟨es, rfl⟩ := eq_of_consulted hconsult
  rcases hcase with ⟨hwait, _, rfl⟩ | rfl | ⟨r, hr, rfl⟩
  · -- `get()` waits, and starts a job that was deferred
    have hneeds := needsGet_of_waiting hwait
    rw [modify_of_resolve (w := { w with log := w.log ++ es }) h.serials hq ht rfl]
    have hok := h.tablet j t ht
    have hcode := (hok.current hact).mpr (startsJob_of_needsGet hneeds)
    refine Or.inl (h₁.modifyAt ht (fun _ => ⟨rfl, rfl⟩) (fun _ => rfl) ?_ fun hn => ?_)
    · refine ⟨fun hna => absurd hact hna, hok.parent, ?_, ?_, ?_, ?_⟩
      · intro ha s' hs' hc
        obtain ⟨s, hs, rfl⟩ := Option.map_eq_some_iff.mp hs'
        exact hok.job ha s hs hc
      · intro s' hs' hne
        obtain ⟨s, hs, rfl⟩ := Option.map_eq_some_iff.mp hs'
        rw [hs] at hcode
        exact absurd (Option.some.inj hcode) hne
      · intro s' hs'
        obtain ⟨s, hs, rfl⟩ := Option.map_eq_some_iff.mp hs'
        exact hok.old s hs
      · intro ha
        have hforCode : (start t).currTrans.data.map (·.forCode) =
            t.currTrans.data.map (·.forCode) := Option.map_map _ _ _
        rw [hforCode]
        exact hok.current ha
    · have hneeds' : (start t).currTrans.needsGet = true := hneeds
      rw [hneeds'] at hn
      exact Bool.noConfusion hn
  · exact h₁.crash
  · exact Or.inl (h₁.handled hpc hderef hr)

theorem Inv.checkRunning (h : Inv A w) {i : Nat} (hpc : w.pc = .running i) :
    Sound A (w.checkRunning A i) := by
  unfold Bluetooth.checkRunning
  cases he : w.runningTransactions[i]? with
  | none => exact Or.inl (h.goto (by rw [hpc]; rfl) trivial)
  | some e =>
      have hres := h.entry e (List.mem_of_getElem? he)
      obtain ⟨j, t, _, ht, hts⟩ := exists_of_resolve hres
      have hm := List.mem_map_of_mem (f := (·.owner)) (List.mem_of_getElem? he)
      have hact : active w.pc j t := by
        rw [← hts] at hm
        exact Or.inl ((busy_serial h.serials ht).mp ((h.busy _).mp hm))
      have h₁ := h.consult ht hact
      dsimp only
      rw [(deref_of_resolve h.serials hres ht hts).2]
      dsimp only
      cases hready : t.currTrans.isReady with
      | none => exact h₁.crash
      | some b =>
          cases b with
          | true =>
              refine Or.inl (h₁.goto ?_ ⟨j, ⟨t, ht, hts, hres, fun _ =>
                jobRunning_of_isReady hready⟩, he⟩)
              show _ = w.pc.focus
              rw [hpc]
              rfl
          | false =>
              refine Or.inl (h₁.goto ?_ trivial)
              show _ = w.pc.focus
              rw [hpc]
              rfl

theorem Inv.callReturned (h : Inv A w) {e : Event winsock} (hw : w.callReturned e = some w') :
    Inv A w' := by
  unfold Bluetooth.callReturned at hw
  split at hw
  · rename_i i p hpc
    split at hw
    · rename_i p' t hp ht
      have hpcok := h.pc
      rw [hpc] at hpcok
      obtain ⟨u, hu, hspec⟩ := hpcok
      have h₁ : Inv A (w.goto (.polling i p')) :=
        h.goto (by rw [hpc]; rfl) ⟨u, hu, hspec.feed hp trivial⟩
      split at hw
      · cases hw
        exact h₁.note ⟨trivial, trivial⟩
      · cases hw
        exact h₁
    · exact absurd hw (by simp)
  · exact absurd hw (by simp)

/-! ## Runs -/

/-- What a step has to respect when it moves or removes tablets. -/
def StepKeeps (A : Addressing ρ) (w w' : Bluetooth ρ) : Act → Prop
  | .call _ | .job _ _ => True
  | .go _ _ => ∀ i q t, w.pc = .started i q → w.deref A q = some t →
      t.currTrans.batmanTrans = true → KeepsPointers A w w'
  | .updateAllBt _ _ | .killSocket _ | .killAllSockets => KeepsPointers A w w'

theorem Inv.go (h : Inv A w) {parse : List Byte → Option Json} {launch : Launch}
    {readWholeFile : Files} (hw : w.go A parse launch readWholeFile = some w')
    (hkeep : ∀ i q t, w.pc = .started i q → w.deref A q = some t →
      t.currTrans.batmanTrans = true → KeepsPointers A w w') : Sound A w' := by
  unfold Bluetooth.go at hw
  split at hw
  · rename_i i hpc
    split at hw
    · cases hw
      exact Or.inl (h.goto (by rw [hpc]; rfl) trivial)
    · rename_i t ht
      cases hw
      exact Or.inl (h.goto (by rw [hpc]; rfl) ⟨t, ht, serveTablet_spec _⟩)
  · rename_i i p hpc
    obtain ⟨r, hr, hw⟩ := Option.bind_eq_some_iff.mp hw
    exact Or.inl (h.polled hpc hr hw)
  · rename_i i q hpc
    exact h.startedTrans hpc hw fun t => hkeep i q t hpc
  · rename_i q owner caller hpc
    exact h.handle hpc hw
  · rename_i i hpc
    cases hw
    exact h.checkRunning hpc
  · exact absurd hw (by simp)
  · exact absurd hw (by simp)

/-- Nothing happens after a crash. -/
theorem act_of_crashed {parse : List Byte → Option Json} (hpc : w.pc = .crashed) (a : Act) :
    w.act A parse a = none := by
  unfold act
  cases a <;> simp [hpc, Bluetooth.callReturned, Bluetooth.go]

/-- **Preserved by every step** that respects the pointers in use. -/
theorem Inv.act {parse : List Byte → Option Json} {a : Act} (h : Inv A w)
    (hw : w.act A parse a = some w') (hkeep : StepKeeps A w w' a) : Sound A w' := by
  unfold Bluetooth.act at hw
  cases a with
  | updateAllBt peer grow =>
      dsimp only at hw
      split at hw
      · rename_i hpc
        obtain ⟨w₁, hw₁, rfl⟩ := Option.map_eq_some_iff.mp hw
        exact Or.inl (h.accept hpc hw₁ hkeep)
      · exact absurd hw (by simp)
  | call e => exact Or.inl (h.callReturned hw)
  | go launch readWholeFile => exact h.go hw hkeep
  | job i e =>
      dsimp only at hw
      split at hw
      · exact absurd hw (by simp)
      · exact Or.inl (h.job hw)
  | killSocket deleteSock =>
      dsimp only at hw
      split at hw
      · rename_i hpc
        exact Or.inl (h.killSocket hpc hw hkeep)
      · exact absurd hw (by simp)
  | killAllSockets =>
      dsimp only at hw
      split at hw
      · rename_i hpc
        exact Or.inl (h.killAllSockets hpc hw hkeep)
      · exact absurd hw (by simp)

theorem sound_run {parse : List Byte → Option Json} {ok : Bluetooth ρ → Act → Prop}
    (hok : ∀ w w' a, Inv A w → ok w a → w.act A parse a = some w' → StepKeeps A w w' a)
    (h : Run A parse ok w) : Sound A w := by
  refine Steps.Run.invariant h (Or.inl inv_init) fun w w' a hsound ha hw => ?_
  rcases hsound with hi | ⟨hpc, _⟩
  · exact hi.act hw (hok w w' a hi ha hw)
  · rw [act_of_crashed hpc] at hw
    exact absurd hw (by simp)

end Bluetooth

end ScoutComputer
