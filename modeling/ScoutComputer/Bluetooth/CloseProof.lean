import ScoutComputer.Bluetooth.HistoryProof

/-!
# How often a socket is closed

`initReadyTransaction` closes the socket of a tablet that says goodbye, and so does the
`killSocket` that takes it out of the table. On every other way out of the table the
socket is closed once.
-/

namespace ScoutComputer

open Interact

/-- The observer that counts the calls of `closesocket`. -/
def closings : Observer winsock Nat where
  allow _ _ _ := True
  next k c _ :=
    match c with
    | .closesocket => k + 1
    | _ => k

theorem selectReady_keepsClosings (write : Bool) : Keeps closings (selectReady write) :=
  selectReady_keeps (fun _ _ _ => rfl) write

theorem getTransactionType_keepsClosings : Keeps closings getTransactionType := by
  refine Keeps.bind (readAllSocketData_keeps (fun _ _ _ => rfl) (fun _ _ _ => rfl)
    (fun _ _ _ => rfl) btExpectedDataInitial) fun res => ?_
  obtain ⟨data, success⟩ := res
  cases success with
  | false => exact Keeps.ret _
  | true => exact Keeps.ret _

theorem readTransactionData_keepsClosings : Keeps closings readTransactionData := by
  refine Keeps.bind (selectReady_keepsClosings false) fun ready => ?_
  cases ready with
  | false => exact Keeps.ret _
  | true =>
      refine Keeps.bind (selectReady_keepsClosings true) fun ready => ?_
      cases ready with
      | false => exact Keeps.ret _
      | true => exact getTransactionType_keepsClosings

/-- How often the socket of a tablet has been closed once its calls are over. -/
def ClosedBy (k : Nat) (r : Option TransactionType) : Prop :=
  k = if r.any isGoodbye then 1 else 0

theorem closesocket_closings {r : Option TransactionType} (h : r.any isGoodbye = true) :
    Spec closings (closesocket.bind fun _ => .ret r) 0 (· ≤ 1) ClosedBy := by
  refine Spec.call (Nat.zero_le 1) fun _ _ => Spec.ret (Nat.le_refl 1) ?_
  unfold ClosedBy
  rw [if_pos h]
  rfl

theorem farewell_closings (c : TransactionType) :
    Spec closings ((farewell c).bind fun _ => .ret (some c)) 0 (· ≤ 1) ClosedBy := by
  unfold farewell
  by_cases herr : c = transSocketError
  · subst herr
    rw [if_pos rfl]
    show Spec closings (Prog.bind (Prog.bind sendNack _) _) 0 _ _
    rw [Prog.bind_assoc]
    have hkeep : Keeps closings sendNack :=
      sendAllocated_keeps (fun _ _ _ => rfl) (fun _ _ _ => rfl) btTabNackSize nack
    exact hkeep.bind_spec (Nat.zero_le 1) fun _ => closesocket_closings rfl
  · rw [if_neg herr]
    by_cases hclose : c = transCloseSocket
    · subst hclose
      rw [if_pos rfl]
      exact closesocket_closings rfl
    · rw [if_neg hclose]
      refine Spec.ret (Nat.zero_le 1) ?_
      have hno : isGoodbye c = false := by simp [isGoodbye, herr, hclose]
      unfold ClosedBy
      rw [Option.any_some, hno]
      rfl

theorem serveTablet_closings (b : Bool) :
    Spec closings (serveTablet b) 0 (· ≤ 1) ClosedBy := by
  refine (selectReady_keepsClosings false).bind_spec (Nat.zero_le 1) fun ready => ?_
  split
  · exact Spec.ret (Nat.zero_le 1) rfl
  · exact readTransactionData_keepsClosings.bind_spec (Nat.zero_le 1) farewell_closings

namespace Bluetooth

variable {ρ : Type} {A : Addressing ρ} {w w' : Bluetooth ρ}

/-- The calls being made are for the tablet with serial number `n`. -/
def Polled (w : Bluetooth ρ) (n : Nat) : Prop :=
  ∃ i p t, w.pc = .polling i p ∧ w.connectedTablets[i]? = some t ∧ t.serial = n

/-- What holds of the sockets as long as nobody says goodbye. -/
structure CloseInv (A : Addressing ρ) (w : Bluetooth ρ) : Prop where
  table : TableInv A w
  calm : ∀ t ∈ w.connectedTablets, t.currTrans.batmanTrans = false
  /-- The calls for a tablet close its socket at most once. -/
  polling : ∀ i p t, w.pc = .polling i p → w.connectedTablets[i]? = some t →
    Spec closings p (w.closes t.serial) (· ≤ 1) ClosedBy
  shut : ∀ n ∈ w.serials, ¬ w.Polled n → w.closes n = 0
  gone : ∀ n, n < w.accepted → n ∉ w.serials → w.closes n = 1
  unborn : ∀ n, w.accepted ≤ n → w.closes n = 0

theorem closeInv_init : CloseInv A (init : Bluetooth ρ) where
  table := tableInv_init
  calm _ h := absurd h List.not_mem_nil
  polling _ _ _ h := by simp [init] at h
  shut _ h := absurd h List.not_mem_nil
  gone _ h := absurd h (Nat.not_lt_zero _)
  unborn _ _ := rfl

theorem CloseInv.le_one (h : CloseInv A w) (n : Nat) : w.closes n ≤ 1 := by
  by_cases hn : n ∈ w.serials
  · by_cases hp : w.Polled n
    · obtain ⟨i, p, t, hpc, ht, rfl⟩ := hp
      exact (h.polling i p t hpc ht).inv_of
    · rw [h.shut n hn hp]
      exact Nat.zero_le 1
  · by_cases hlt : n < w.accepted
    · rw [h.gone n hlt hn]
    · rw [h.unborn n (Nat.le_of_not_lt hlt)]
      exact Nat.zero_le 1

/-- Steps between which no socket is closed and the calls for no tablet begin or end. -/
theorem CloseInv.quiet (h : CloseInv A w) (ht : TableInv A w') (hq : Quiet w w')
    (hpc : w'.pc = w.pc ∨ (∀ i p, w'.pc ≠ .polling i p) ∧ ∀ n ∈ w.serials, w.closes n = 0) :
    CloseInv A w' := by
  refine ⟨ht, ?_, ?_, ?_, ?_, ?_⟩
  · intro t' ht'
    obtain ⟨i, hi⟩ := List.mem_iff_getElem?.mp ht'
    obtain ⟨t, hget, hm⟩ := hq.get hi
    have hbat : t'.currTrans.batmanTrans = t.currTrans.batmanTrans := congrArg (fun m => m.2.2) hm
    exact hbat.trans (h.calm t (List.mem_of_getElem? hget))
  · intro i p t' hpoll hi
    rcases hpc with hpc | ⟨hno, _⟩
    · obtain ⟨t, hget, hm⟩ := hq.get hi
      have hserial : t'.serial = t.serial := congrArg (fun m => m.1.serial) hm
      rw [hserial, hq.closes]
      exact h.polling i p t (hpc.symm.trans hpoll) hget
    · exact absurd hpoll (hno i p)
  · intro n hn hnot
    rw [hq.serials] at hn
    rw [hq.closes]
    rcases hpc with hpc | ⟨_, hzero⟩
    · refine h.shut n hn fun ⟨i, p, t, hpoll, hget, hserial⟩ => hnot ?_
      obtain ⟨t', hi, hm⟩ := hq.get' hget
      have hserial' : t'.serial = t.serial := congrArg (fun m => m.1.serial) hm
      exact ⟨i, p, t', hpc.trans hpoll, hi, hserial'.trans hserial⟩
    · exact hzero n hn
  · intro n hn hout
    rw [hq.closes]
    rw [hq.accepted] at hn
    rw [hq.serials] at hout
    exact h.gone n hn hout
  · intro n hn
    rw [hq.closes]
    rw [hq.accepted] at hn
    exact h.unborn n hn

/-- Outside the calls for a tablet no socket in the table has been closed. -/
theorem CloseInv.shut_of_pc (h : CloseInv A w) (hpc : ∀ i p, w.pc ≠ .polling i p) :
    ∀ n ∈ w.serials, w.closes n = 0 :=
  fun n hn => h.shut n hn fun ⟨i, p, _, hpoll, _⟩ => hpc i p hpoll

theorem closes_note_closed (w : Bluetooth ρ) (n m : Nat) :
    (w.note (.closed n)).closes m = w.closes m + if n = m then 1 else 0 := by
  unfold closes note
  rw [List.count_append, List.count_singleton]
  congr 1
  by_cases h : n = m
  · subst h
    simp
  · simp [h]

/-- Who is still in the table once the tablet at index `i` has left. -/
theorem mem_serials_eraseIdx (hn : w.serials.Nodup) {i n : Nat} {t : BtTabObj ρ}
    (ht : w.connectedTablets[i]? = some t) :
    n ∈ (w.connectedTablets.eraseIdx i).map (·.serial) ↔ n ∈ w.serials ∧ n ≠ t.serial := by
  constructor
  · intro h
    obtain ⟨u, hu, rfl⟩ := List.mem_map.mp h
    obtain ⟨j, hj, hu⟩ := List.mem_eraseIdx_iff_getElem?.mp hu
    exact ⟨List.mem_map_of_mem (List.mem_of_getElem? hu),
      fun heq => hj (eq_of_serial hn hu ht heq).1⟩
  · intro ⟨h, hne⟩
    obtain ⟨u, hu, rfl⟩ := List.mem_map.mp h
    obtain ⟨j, hj⟩ := List.mem_iff_getElem?.mp hu
    refine List.mem_map_of_mem (List.mem_eraseIdx_iff_getElem?.mpr ⟨j, ?_, hj⟩)
    intro hij
    subst hij
    rw [ht] at hj
    exact hne (congrArg (·.serial) (Option.some.inj hj).symm)

/-- A tablet is killed, and its socket closed. -/
theorem CloseInv.erase (h : CloseInv A w) {i : Nat} {t : BtTabObj ρ}
    (hpc : ∀ i p, w.pc ≠ .polling i p) (ht : w.connectedTablets[i]? = some t)
    (htab : TableInv A ({ w with connectedTablets := w.connectedTablets.eraseIdx i }.note
      (.closed t.serial))) :
    CloseInv A ({ w with connectedTablets := w.connectedTablets.eraseIdx i }.note
      (.closed t.serial)) := by
  have hzero := h.shut_of_pc hpc
  have hmem : t.serial ∈ w.serials := List.mem_map_of_mem (List.mem_of_getElem? ht)
  have hiff := fun n => mem_serials_eraseIdx (n := n) h.table.nodup ht
  have hcloses := fun n => closes_note_closed
    { w with connectedTablets := w.connectedTablets.eraseIdx i } t.serial n
  refine ⟨htab, fun u hu => h.calm u (List.mem_of_mem_eraseIdx hu),
    fun j p u hpoll => absurd hpoll (hpc j p), fun n hn _ => ?_, fun n hn hout => ?_,
    fun n hn => ?_⟩
  · obtain ⟨hin, hne⟩ := (hiff n).mp hn
    rw [hcloses, if_neg (Ne.symm hne), Nat.add_zero]
    exact hzero n hin
  · rw [hcloses]
    by_cases heq : t.serial = n
    · subst heq
      rw [if_pos rfl]
      exact congrArg (· + 1) (hzero _ hmem)
    · rw [if_neg heq, Nat.add_zero]
      exact h.gone n hn fun hin => hout ((hiff n).mpr ⟨hin, Ne.symm heq⟩)
  · have hne : t.serial ≠ n := by
      have hlt := h.table.fresh _ hmem
      have hn : w.accepted ≤ n := hn
      omega
    rw [hcloses, if_neg hne, Nat.add_zero]
    exact h.unborn n hn

theorem CloseInv.killAll (h : CloseInv A w) (hpc : w.pc = .idle)
    (hw : w.killAllSockets = some w') (htab : TableInv A w') : CloseInv A w' := by
  have hzero := h.shut_of_pc (by rw [hpc]; simp)
  unfold killAllSockets at hw
  split at hw
  · exact absurd hw (by simp)
  · cases hw
    have hcloses : ∀ n, Bluetooth.closes { w with
        connectedTablets := []
        log := w.log ++ w.connectedTablets.map fun t => .closed t.serial } n =
        w.closes n + w.serials.count n := by
      intro n
      unfold closes
      rw [List.count_append]
      congr 1
      unfold serials
      induction w.connectedTablets with
      | nil => rfl
      | cons t l ih => simp [List.count_cons, ih]
    refine ⟨htab, fun u hu => absurd hu List.not_mem_nil, fun j p u hpoll => ?_,
      fun n hn => absurd hn List.not_mem_nil, fun n hn _ => ?_, fun n hn => ?_⟩
    · exact absurd (hpc.symm.trans hpoll) (by simp)
    · rw [hcloses]
      by_cases hin : n ∈ w.serials
      · rw [hzero n hin, List.count_eq_one_of_mem h.table.nodup hin]
      · rw [h.gone n hn hin, List.count_eq_zero_of_not_mem hin]
    · have hnot : n ∉ w.serials := by
        intro hin
        have hlt := h.table.fresh n hin
        have hn : w.accepted ≤ n := hn
        omega
      rw [hcloses, h.unborn n hn, List.count_eq_zero_of_not_mem hnot]

theorem CloseInv.accept (h : CloseInv A w) {socket : Socket} {mac : List Byte} {grow : Nat}
    (hpc : w.pc = .idle) (hw : w.acceptConn (some (socket, mac)) grow = some w')
    (htab : TableInv A (w'.goto (.ready 0))) : CloseInv A (w'.goto (.ready 0)) := by
  obtain ⟨_, htablets, _, hserials, hacc, _, hlog, _⟩ := acceptConn_eq_some hw
  have hzero := h.shut_of_pc (by rw [hpc]; simp)
  have hcloses : ∀ n, (w'.goto (.ready 0)).closes n = w.closes n := by
    intro n
    show w'.log.count _ = _
    rw [hlog]
    rfl
  refine ⟨htab, fun t ht => ?_, fun i p t hpoll => absurd hpoll (by simp [Bluetooth.goto]),
    fun n hn _ => ?_, fun n hn hout => ?_, fun n hn => ?_⟩
  · replace ht : t ∈ w'.connectedTablets := ht
    rw [htablets] at ht
    rcases List.mem_append.mp ht with ht | ht
    · exact h.calm t ht
    · rw [List.mem_singleton.mp ht]
      rfl
  · rw [hcloses]
    replace hn : n ∈ w'.serials := hn
    rw [hserials] at hn
    rcases List.mem_append.mp hn with hn | hn
    · exact hzero n hn
    · rw [List.mem_singleton.mp hn]
      exact h.unborn _ (Nat.le_refl _)
  · rw [hcloses]
    replace hn : n < w'.accepted := hn
    replace hout : n ∉ w'.serials := hout
    rw [hacc] at hn
    rw [hserials, List.mem_append, List.mem_singleton, not_or] at hout
    exact h.gone n (by omega) hout.1
  · rw [hcloses]
    replace hn : w'.accepted ≤ n := hn
    exact h.unborn n (by omega)

/-- A call made for a tablet has returned. -/
theorem CloseInv.call (h : CloseInv A w) {i : Nat} {p p' : Job (Option TransactionType)}
    {t : BtTabObj ρ} {e : Event winsock} (hpc : w.pc = .polling i p) (hp : p.feed e = some p')
    (ht : w.connectedTablets[i]? = some t) {k : Nat}
    (hw' : w' = { w with pc := .polling i p', log := w'.log })
    (hcloses : ∀ n, w'.closes n = w.closes n + if t.serial = n then k else 0)
    (hk : closings.next (w.closes t.serial) e.1 e.2 = w.closes t.serial + k)
    (htab : TableInv A w') : CloseInv A w' := by
  have htablets : w'.connectedTablets = w.connectedTablets := by rw [hw']
  have hserials : w'.serials = w.serials := by
    unfold serials
    rw [htablets]
  have hacc : w'.accepted = w.accepted := by rw [hw']
  have hpc' : w'.pc = .polling i p' := by rw [hw']
  have hmem : t.serial ∈ w.serials := List.mem_map_of_mem (List.mem_of_getElem? ht)
  have hother : ∀ n, t.serial ≠ n → w'.closes n = w.closes n := fun n hne => by
    rw [hcloses, if_neg hne, Nat.add_zero]
  refine ⟨htab, htablets ▸ h.calm, ?_, fun n hn hnot => ?_, fun n hn hout => ?_, fun n hn => ?_⟩
  · intro j q u hpoll hu
    rw [hpc'] at hpoll
    cases hpoll
    rw [htablets, ht] at hu
    cases hu
    rw [hcloses, if_pos rfl, ← hk]
    exact (h.polling i p t hpc ht).feed hp trivial
  · rw [hserials] at hn
    have hne : t.serial ≠ n := fun heq => hnot ⟨i, p', t, hpc', htablets ▸ ht, heq⟩
    rw [hother n hne]
    refine h.shut n hn fun ⟨j, q, u, hpoll, hu, hus⟩ => ?_
    rw [hpc] at hpoll
    cases hpoll
    rw [ht] at hu
    cases hu
    exact hne hus
  · rw [hserials] at hout
    rw [hother n fun heq => hout (heq ▸ hmem)]
    exact h.gone n (hacc ▸ hn) hout
  · rw [hacc] at hn
    have hne : t.serial ≠ n := by
      have hlt := h.table.fresh _ hmem
      omega
    rw [hother n hne]
    exact h.unborn n hn

/-- The calls for a tablet that did not say goodbye have closed nothing. -/
theorem CloseInv.polled (h : CloseInv A w) {i : Nat} {p : Job (Option TransactionType)}
    {t : BtTabObj ρ} {r : Option TransactionType} (hpc : w.pc = .polling i p)
    (ht : w.connectedTablets[i]? = some t) (hr : p.result? = some r)
    (hstay : r.any isGoodbye = false) : ∀ n ∈ w.serials, w.closes n = 0 := by
  intro n hn
  by_cases hp : t.serial = n
  · subst hp
    have hp : p = .ret r := Prog.result?_eq_some.mp hr
    subst hp
    have hclosed := (h.polling i _ t hpc ht).post_of
    unfold ClosedBy at hclosed
    rw [hstay] at hclosed
    exact hclosed
  · refine h.shut n hn fun ⟨j, q, u, hpoll, hu, hus⟩ => hp ?_
    rw [hpc] at hpoll
    cases hpoll
    rw [ht] at hu
    cases hu
    exact hus

theorem CloseInv.serve (h : CloseInv A w) {i : Nat} {t : BtTabObj ρ} {launch : Launch}
    {readWholeFile : Files} {c : TransactionType} (ht : w.connectedTablets[i]? = some t)
    (hstay : isGoodbye c = false) (hzero : ∀ n ∈ w.serials, w.closes n = 0)
    (htab : TableInv A ((w.modifyAt i (serve (w.pointer A i) launch readWholeFile c)).goto
      (.started i (w.pointer A i)))) :
    CloseInv A ((w.modifyAt i (serve (w.pointer A i) launch readWholeFile c)).goto
      (.started i (w.pointer A i))) := by
  have hserials : ((w.modifyAt i (Bluetooth.serve (w.pointer A i) launch readWholeFile c)).goto
      (.started i (w.pointer A i))).serials = w.serials := by
    rw [serials_eq, identities_serve, ← serials_eq]
  refine ⟨htab, fun u hu => ?_, fun j p u hpoll => ?_, fun n hn _ => ?_, fun n hn hout => ?_,
    h.unborn⟩
  · obtain ⟨j, hj⟩ := List.mem_iff_getElem?.mp hu
    replace hj : (w.modifyAt i (Bluetooth.serve (w.pointer A i) launch readWholeFile
      c)).connectedTablets[j]? = some u := hj
    rw [modifyAt_get] at hj
    split at hj
    · rename_i hij
      subst hij
      rw [ht] at hj
      rw [← Option.some.inj hj]
      have hcalm := h.calm t (List.mem_of_getElem? ht)
      exact (initReadyTransaction_batman _ _ _ _ _ _ c hcalm).trans hstay
    · exact h.calm u (List.mem_of_getElem? hj)
  · exact absurd hpoll (by simp [Bluetooth.goto])
  · exact hzero n (hserials ▸ hn)
  · exact h.gone n hn (hserials ▸ hout)

/-- The table one step on, while no tablet says goodbye. -/
theorem CloseInv.step (h : CloseInv A w) {a : Act} (hs : TableStep A w a w')
    (hstay : ∀ r ∈ reading w a, isGoodbye r.2 = false) : CloseInv A w' := by
  have htab := h.table.step hs
  have hgoto : ∀ {pc : Pc ρ}, (∀ i p, w.pc ≠ .polling i p) → (∀ i p, pc ≠ .polling i p) →
      TableInv A (w.goto pc) → CloseInv A (w.goto pc) := fun hw hpc htab =>
    h.quiet htab (still_goto w _).toQuiet (Or.inr ⟨hpc, h.shut_of_pc hw⟩)
  cases hs with
  | nobody hpc => exact hgoto (by rw [hpc]; simp) (by simp) htab
  | accept hpc hw => exact h.accept hpc hw htab
  | kill hpc hw =>
      rcases killSocket_eq_some hw with ⟨_, rfl⟩ | ⟨i, t, _, ht, _, rfl⟩
      · exact h
      · exact h.erase (by rw [hpc]; simp) ht htab
  | killAll hpc hw => exact h.killAll hpc hw htab
  | job hw hstill hpc => exact h.quiet htab hstill.toQuiet (Or.inl hpc)
  | @ask i t _ _ hpc ht =>
      have hzero := h.shut_of_pc (by rw [hpc]; simp)
      refine ⟨htab, h.calm, ?_, fun n hn _ => hzero n hn, h.gone, h.unborn⟩
      intro j p u hpoll hu
      cases hpoll
      have hu : u ∈ w.connectedTablets := List.mem_of_getElem? hu
      show Spec closings _ (w.closes u.serial) _ _
      rw [hzero _ (List.mem_map_of_mem hu)]
      exact serveTablet_closings _
  | readyDone hpc hnone => exact hgoto (by rw [hpc]; simp) (by simp) htab
  -- the only step that can close a socket and leave the table alone
  | @call i p p' t e hpc hp ht =>
      have hnext : ∀ (c : Call) (r : c.Res), c ≠ .closesocket →
          closings.next (w.closes t.serial) c r = w.closes t.serial := by
        intro c r hc
        cases c <;> first | rfl | exact absurd rfl hc
      split at htab
      · rename_i hc
        rw [if_pos hc]
        obtain ⟨c, r⟩ := e
        subst hc
        exact h.call (k := 1) hpc hp ht rfl (closes_note_closed _ _) rfl htab
      · rename_i hc
        rw [if_neg hc]
        refine h.call (k := 0) hpc hp ht rfl (fun n => ?_) (hnext e.1 e.2 hc) htab
        rw [ite_self, Nat.add_zero]
        rfl
  | @pass i p _ _ hpc hr =>
      refine h.quiet htab (still_goto w _).toQuiet (Or.inr ⟨by simp [Bluetooth.goto], ?_⟩)
      cases ht : w.connectedTablets[i]? with
      | some t => exact h.polled hpc ht hr rfl
      | none =>
          refine fun n hn => h.shut n hn fun hpolled => ?_
          obtain ⟨j, q, u, hpoll, hu, _⟩ := hpolled
          rw [hpc] at hpoll
          cases hpoll
          rw [ht] at hu
          exact absurd hu (by simp)
  | @serve i p c t _ _ hpc hr ht =>
      -- no tablet says goodbye in a run like this
      have hc : isGoodbye c = false := by
        refine hstay (t.serial, c) ?_
        unfold reading
        rw [hpc]
        dsimp only
        rw [hr, ht]
        exact List.mem_singleton.mpr rfl
      exact h.serve ht hc (h.polled hpc ht hr hc) htab
  | goodbye hpc ht hb =>
      rw [h.calm _ (List.mem_of_getElem? ht)] at hb
      exact Bool.noConfusion hb
  | queue hpc ht hb hq hstates hpc' =>
      exact h.quiet htab hq (Or.inr ⟨by rw [hpc']; simp, h.shut_of_pc (by rw [hpc]; simp)⟩)
  | result hpc ht hb hstill hpc' =>
      refine h.quiet htab hstill.toQuiet (Or.inr ⟨?_, h.shut_of_pc (by rw [hpc]; simp)⟩)
      rcases hpc' with hpc' | hpc'
      · rw [hpc']
        simp
      · rw [hpc']
        simp
  | handleReady hpc hstill hpc' =>
      have hzero := h.shut_of_pc (by rw [hpc]; simp)
      refine h.quiet htab hstill.toQuiet (Or.inr ⟨fun i p hpoll => ?_, hzero⟩)
      rcases hpc' with hpc' | hpc' | hpc'
      · exact absurd (hpc.symm.trans (hpc'.symm.trans hpoll)) (by simp)
      · exact absurd (hpc'.symm.trans hpoll) (by simp)
      · exact absurd (hpc'.symm.trans hpoll) (by simp)
  | running hpc hq hpc' =>
      refine h.quiet htab hq (Or.inr ⟨fun i p hpoll => ?_, h.shut_of_pc fun i p hpoll => ?_⟩)
      · rw [hpoll] at hpc'
        simp at hpc'
      · rw [hpoll] at hpc
        simp at hpc

/--
**Every accepted socket is closed exactly once** as long as no tablet says goodbye: never
twice, and once it has left the table.
-/
theorem closed_once {w : Bluetooth ρ} {parse : List Byte → Option Json}
    (hrun : Run A parse (fun w a => ∀ r ∈ reading w a, isGoodbye r.2 = false) w) :
    (∀ n, w.closes n ≤ 1) ∧ ∀ n, n < w.accepted → n ∉ w.serials → w.closes n = 1 := by
  have h : CloseInv A w := Steps.Run.invariant hrun closeInv_init
    fun _ _ _ hi hstay hw => hi.step (hi.table.tableStep hw) hstay
  exact ⟨h.le_one, h.gone⟩

/-- Nobody is reported to say goodbye in a step. -/
def staysConnected (w : Bluetooth ρ) (a : Act) : Bool :=
  (reading w a).all fun r => !isGoodbye r.2

/-- Two tablets join, the first starts a transfer, and the second is killed. -/
def secondKilled : List Act :=
  joins 10 :: sendsCode 2 ++ [onward, onward, onward, onward, onward] ++
  joins 11 :: passedOver ++ passedOver ++ [onward, onward, onward] ++
  [.killSocket 11]

theorem closed_once_secondKilled : ∃ w : Bluetooth (Nat × Nat), w.serials = [0] ∧ w.accepted = 2 ∧
    w.closes 1 = 1 := by
  have hr : ((Steps.replay (act slots fun _ => none) staysConnected secondKilled init).map
      fun w => (w.serials, w.accepted)) = some ([0], 2) := by decide +kernel
  obtain ⟨w, hw, heq⟩ := Option.map_eq_some_iff.mp hr
  have hserials : w.serials = [0] := congrArg Prod.fst heq
  have hacc : w.accepted = 2 := congrArg Prod.snd heq
  refine ⟨w, hserials, hacc, (closed_once (A := slots) (Steps.run_of_replay (fun v a hok => ?_)
    .init hw)).2 1 ?_ ?_⟩
  · exact fun r hr => by simpa using List.all_eq_true.mp hok r hr
  · rw [hacc]
    decide
  · rw [hserials]
    decide

/-- A tablet joins and says goodbye. -/
def saysGoodbye : List Act :=
  joins 10 :: sendsCode 0 ++ [.call ⟨.closesocket, ()⟩, onward, onward]

/-- The socket of a tablet that says goodbye is closed twice. -/
theorem closed_twice : ¬ ∀ (parse : List Byte → Option Json) (w : Bluetooth (Nat × Nat)),
    Run slots parse (fun _ _ => True) w →
    (∀ n, w.closes n ≤ 1) ∧ ∀ n, n < w.accepted → n ∉ w.serials → w.closes n = 1 := by
  intro hall
  have hr : ((Steps.replay (act slots fun _ => none) (fun _ _ => true) saysGoodbye init).map
      fun w => w.closes 0) = some 2 := by decide +kernel
  obtain ⟨w, hw, hclosed⟩ := Option.map_eq_some_iff.mp hr
  have hle := (hall (fun _ => none) w (Steps.run_of_replay (fun _ _ _ => trivial) .init hw)).1 0
  rw [hclosed] at hle
  exact absurd hle (by decide)

end Bluetooth

end ScoutComputer
