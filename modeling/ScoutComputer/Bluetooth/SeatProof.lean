import ScoutComputer.Bluetooth.AccountProof
import ScoutComputer.Bluetooth.ViewProof

/-!
# What a step does to one tablet, and what it notes of it

`SeatStep` is `Deed` as one tablet sees it: what changes in the tablet, what the main
thread is doing for it, the call made on its socket, and what is noted on its account.

That each deed is such a step (`Inv.seat_deed`) comes down to two questions. Whose tablet is
at the index the deed is about: its own `SeatStep` is read off the deed (`Inv.seat_at`), and
to all others the deed is nothing (`Sits.stays`). And where the main thread is before and
after: `attention` turns its program counter, which names an index, into what it does for
one serial number, and so survives the erasures that move the indices.
-/

namespace ScoutComputer.Bluetooth

open Interact

variable {ρ : Type} {A : Addressing ρ} {w w' : Bluetooth ρ} {parse : List Byte → Option Json}

/-- A tablet, what the main thread does for it, and what was noted on its account. -/
structure Seat (ρ : Type) where
  tablet : BtTabObj ρ
  attention : Attention
  log : List Effect

/-- The tablet with serial number `n` is in the table, as `S` has it. -/
structure Sits (w : Bluetooth ρ) (n : Nat) (S : Seat ρ) : Prop where
  place : S.tablet ∈ w.connectedTablets
  serial : S.tablet.serial = n
  attention : S.attention = w.attention n
  log : S.log = mine n w.log

/-- No effect is a result or gives a name. -/
def AllSilent (es : List Effect) : Prop := ∀ e ∈ es, Effect.Silent e

/-- **What a step does to a tablet in its seat**, and the call it makes on its socket. -/
inductive SeatStep (parse : List Byte → Option Json) (S : Seat ρ) :
    Act → Option (Event winsock) → Seat ρ → Prop where
  /-- Nothing, but that something may be noted. -/
  | still {a : Act} {es : List Effect} : AllSilent es →
      SeatStep parse S a none { S with log := S.log ++ es }
  | ask {launch : Launch} {readWholeFile : Files} : S.attention = .away →
      SeatStep parse S (.go launch readWholeFile) none
        { S with attention := .polling (serveTablet S.tablet.transactionState) }
  | call {p p' : Job (Option TransactionType)} {e : Event winsock} {es : List Effect} :
      S.attention = .polling p → p.feed e = some p' → AllSilent es →
      SeatStep parse S (.call e) (some e) ⟨S.tablet, .polling p', S.log ++ es⟩
  | pass {launch : Launch} {readWholeFile : Files} : S.attention = .polling (.ret none) →
      SeatStep parse S (.go launch readWholeFile) none { S with attention := .away }
  | serve {self : ρ} {c : TransactionType} {launch : Launch} {readWholeFile : Files} :
      S.attention = .polling (.ret (some c)) → S.tablet.transactionState = false →
      SeatStep parse S (.go launch readWholeFile) none
        ⟨Bluetooth.serve self launch readWholeFile c S.tablet, .started, S.log⟩
  | queue {launch : Launch} {readWholeFile : Files} {es : List Effect} :
      S.attention = .started → S.tablet.currTrans.batmanTrans = false → AllSilent es →
      SeatStep parse S (.go launch readWholeFile) none
        ⟨setTransactionState true S.tablet, .away, S.log ++ es⟩
  | ready {launch : Launch} {readWholeFile : Files} {es : List Effect} :
      S.attention = .started → S.tablet.currTrans.batmanTrans = false → AllSilent es →
      SeatStep parse S (.go launch readWholeFile) none ⟨S.tablet, .handling, S.log ++ es⟩
  | due {launch : Launch} {readWholeFile : Files} {es : List Effect} :
      S.attention = .away → S.tablet.transactionState = true → AllSilent es →
      SeatStep parse S (.go launch readWholeFile) none ⟨S.tablet, .handling, S.log ++ es⟩
  | wait {launch : Launch} {readWholeFile : Files} {es : List Effect} :
      S.attention = .handling → AllSilent es →
      SeatStep parse S (.go launch readWholeFile) none ⟨start S.tablet, .handling, S.log ++ es⟩
  | conclude {r : Handled ρ} {launch : Launch} {readWholeFile : Files} {es es' : List Effect} :
      S.attention = .handling → handleTransResult parse S.tablet.currTrans = .ok r →
      AllSilent es → AllSilent es' →
      SeatStep parse S (.go launch readWholeFile) none
        ⟨setTransactionState false (settle r S.tablet), .away,
          S.log ++ (es ++ concluded S.tablet r ++ es')⟩
  | work {i : Nat} {s : SharedState ρ} {prog : Job (Option (List Byte) × Bool)}
      {e : Event winsock} {es : List Effect} : S.tablet.currTrans.data = some s →
      s.started = true → s.prog.feed e = some prog →
      (S.tablet.transactionState = true ∨ S.attention = .started ∨ S.attention = .handling) →
      AllSilent es →
      SeatStep parse S (.job i e) (some e) ⟨worked s prog e S.tablet, S.attention, S.log ++ es⟩

/-! ## Silence -/

theorem allSilent_nil : AllSilent [] := fun _ he => absurd he List.not_mem_nil

theorem allSilent_consultation (t : BtTabObj ρ) : AllSilent [consultation t] := by
  intro e he
  rw [List.mem_singleton.mp he]
  exact ⟨rfl, rfl⟩

theorem allSilent_closed (n : Nat) : AllSilent [.closed n] := by
  intro e he
  rw [List.mem_singleton.mp he]
  exact ⟨rfl, rfl⟩

theorem allSilent_asked (t : BtTabObj ρ) : AllSilent (asked t) := fun _ he => silent_asked he

theorem allSilent_mine {es : List Effect} (h : AllSilent es) (n : Nat) : AllSilent (mine n es) :=
  fun e he => h e (List.mem_filter.mp he).1

/-- What is noted on account of tablets in the table is not noted of the others. -/
theorem mine_of_owners {n : Nat} {l : List Effect} (hn : n ∉ w.serials) (hlog : w'.log = w.log ++ l)
    (hl : ∀ e ∈ l, e.owner ∈ w.serials) : mine n w'.log = mine n w.log := by
  have hnone : mine n l = [] := mine_none fun e he heq => hn (heq ▸ hl e he)
  rw [hlog, mine_append, hnone, List.append_nil]

/-! ## What is known of a tablet after a step -/

/-- The tablet has left or the program has crashed, or it is in its seat and has moved on. -/
def Reseated (A : Addressing ρ) (parse : List Byte → Option Json) (w : Bluetooth ρ) (n : Nat)
    (S : Seat ρ) (a : Act) (w' : Bluetooth ρ) : Prop :=
  ((w'.pc = .crashed ∨ n ∉ w'.serials) ∧
      ∃ es, AllSilent es ∧ mine n w'.log = S.log ++ es) ∨
    ∃ S', Sits w' n S' ∧ SeatStep parse S a (w.onSocket A n a) S'

section
variable {n : Nat} {S : Seat ρ} {a : Act}

theorem Sits.eq (hn : w.serials.Nodup) (h : Sits w n S) {i : Nat} {t : BtTabObj ρ}
    (ht : w.connectedTablets[i]? = some t) (hs : t.serial = n) :
    S = ⟨t, w.attention n, mine n w.log⟩ := by
  obtain ⟨tablet, attention, log⟩ := S
  obtain ⟨hplace, hserial, rfl, rfl⟩ := h
  obtain ⟨j, hj⟩ := List.mem_iff_getElem?.mp hplace
  obtain ⟨_, rfl⟩ := eq_of_serial hn ht hj (hs.trans hserial.symm)
  rfl

/-- Nothing is done to the tablet. -/
theorem Sits.stays (h : Sits w n S) {l : List Effect} (hplace : S.tablet ∈ w'.connectedTablets)
    (hatt : w'.attention n = w.attention n) (hlog : w'.log = w.log ++ l)
    (hl : ∀ e ∈ l, e.owner ≠ n) (hsocket : w.onSocket A n a = none) :
    Reseated A parse w n S a w' := by
  have hmine : mine n w'.log = mine n w.log := by
    rw [hlog, mine_append, mine_none hl, List.append_nil]
  refine Or.inr ⟨S, ⟨hplace, h.serial, h.attention.trans hatt.symm, h.log.trans hmine.symm⟩, ?_⟩
  rw [hsocket]
  have hstill : SeatStep parse S a none { S with log := S.log ++ [] } := .still allSilent_nil
  rwa [List.append_nil] at hstill

/-- The tablet is gone, or all is. -/
theorem Sits.ends (h : Sits w n S) {l : List Effect} (hend : w'.pc = .crashed ∨ n ∉ w'.serials)
    (hlog : w'.log = w.log ++ l) (hl : AllSilent l) : Reseated A parse w n S a w' := by
  refine Or.inl ⟨hend, mine n l, allSilent_mine hl n, ?_⟩
  rw [hlog, mine_append, h.log]

/-- The tablet at index `i` is changed by `f`; to the others the step is nothing. -/
theorem Inv.seat_at (hinv : Inv A w) (h : Sits w n S) {i : Nat} {t : BtTabObj ρ}
    {f : BtTabObj ρ → BtTabObj ρ} {x : Option (Event winsock)} {l : List Effect}
    (ht : w.connectedTablets[i]? = some t) (hf : KeepsPlace f)
    (htab : w'.connectedTablets = (w.modifyAt i f).connectedTablets)
    (hlog : w'.log = w.log ++ l) (hl : ∀ e ∈ l, e.owner = t.serial)
    (hsocket : w.onSocket A n a = if t.serial = n then x else none)
    (hother : t.serial ≠ n → w'.attention n = w.attention n)
    (hself : t.serial = n → ∀ log, SeatStep parse ⟨t, w.attention n, log⟩ a x
      ⟨f t, w'.attention n, log ++ l⟩) : Reseated A parse w n S a w' := by
  by_cases hn : t.serial = n
  · rw [if_pos hn] at hsocket
    have hget : w'.connectedTablets[i]? = some (f t) := by
      rw [htab, modifyAt_get, if_pos rfl, ht]
      rfl
    refine Or.inr ⟨⟨f t, w'.attention n, mine n w.log ++ l⟩,
      ⟨List.mem_of_getElem? hget, (hf t).2.trans hn, rfl, ?_⟩, ?_⟩
    · rw [hlog, mine_append, mine_all (l := l) fun e he => (hl e he).trans hn]
    · rw [hsocket, h.eq hinv.serials ht hn]
      exact hself hn _
  · rw [if_neg hn] at hsocket
    refine h.stays ?_ (hother hn) hlog (fun e he => (hl e he).symm ▸ hn) hsocket
    obtain ⟨j, hj⟩ := List.mem_iff_getElem?.mp h.place
    have hij : i ≠ j := by
      rintro rfl
      rw [ht] at hj
      cases hj
      exact hn h.serial
    refine List.mem_of_getElem? (i := j) ?_
    rw [htab, modifyAt_get, if_neg hij, hj]

/-- Only what the main thread does for the tablet at index `i` changes. -/
theorem Inv.seat_still (hinv : Inv A w) (h : Sits w n S) {i : Nat} {t : BtTabObj ρ}
    {x : Option (Event winsock)} {l : List Effect} (ht : w.connectedTablets[i]? = some t)
    (htab : w'.connectedTablets = w.connectedTablets) (hlog : w'.log = w.log ++ l)
    (hl : ∀ e ∈ l, e.owner = t.serial)
    (hsocket : w.onSocket A n a = if t.serial = n then x else none)
    (hother : t.serial ≠ n → w'.attention n = w.attention n)
    (hself : t.serial = n → ∀ log, SeatStep parse ⟨t, w.attention n, log⟩ a x
      ⟨t, w'.attention n, log ++ l⟩) : Reseated A parse w n S a w' :=
  hinv.seat_at h ht keepsPlace_id (htab.trans (modifyAt_id w i)) hlog hl hsocket hother hself

end

/-- Where the main thread is, and in which tablet, is all that matters. -/
theorem attention_congr {n : Nat} (hpc : w'.pc = w.pc) (hserials : w'.serials = w.serials) :
    w'.attention n = w.attention n := by
  unfold attention
  rw [hpc, hserials]

theorem not_owner_nil {n : Nat} : ∀ e ∈ ([] : List Effect), e.owner ≠ n :=
  fun _ he => absurd he List.not_mem_nil

theorem owner_nil {n : Nat} : ∀ e ∈ ([] : List Effect), e.owner = n :=
  fun _ he => absurd he List.not_mem_nil

theorem owner_closed {n : Nat} : ∀ e ∈ [Effect.closed n], e.owner = n := by
  intro e he
  rw [List.mem_singleton.mp he]
  rfl

theorem owner_consultation {t : BtTabObj ρ} : ∀ e ∈ [consultation t], e.owner = t.serial := by
  intro e he
  rw [List.mem_singleton.mp he]
  rfl

/-- A job makes a call. -/
theorem Inv.seat_job (hinv : Inv A w) {n i : Nat} {S : Seat ρ} {t : BtTabObj ρ}
    {s : SharedState ρ} {prog : Job (Option (List Byte) × Bool)} {e : Event winsock}
    (h : Sits w n S) (ht : w.connectedTablets[i]? = some t) (hs : t.currTrans.data = some s)
    (hst : s.started = true) (hp : s.prog.feed e = some prog) (hact : active w.pc i t) :
    Reseated A parse w n S (.job i e)
      ((w.modifyAt i (worked s prog e)).note (jobEffect t.serial e)) := by
  have hrun : t.jobRunning = true := by
    unfold BtTabObj.jobRunning
    rw [hs]
    simp [hst, result?_of_feed hp]
  obtain ⟨_, _, _, hthis, _⟩ := hinv.running_job ht hs hrun
  have hatt : ((w.modifyAt i (worked s prog e)).note (jobEffect t.serial e)).attention n =
      w.attention n :=
    attention_congr rfl (sameTable_modifyAt (keepsPlace_worked s prog e) w i).serials
  refine hinv.seat_at (x := some e) h ht (keepsPlace_worked s prog e) rfl rfl ?_ ?_
    (fun _ => hatt) fun hn log => ?_
  · intro e' he'
    rw [List.mem_singleton.mp he']
    exact owner_jobEffect _ _
  · unfold onSocket
    dsimp only
    rw [ht, Option.bind_some, hs]
    dsimp only
    rw [hthis]
    exact if_congr Option.some_inj rfl rfl
  · rw [hatt]
    refine .work hs hst hp (hinv.attention_of_active ht hn hact) fun e' he' => ?_
    rw [List.mem_singleton.mp he']
    exact silent_jobEffect _ _

/-- The tablet at index `i` leaves: that is the end for it, and nothing to the others. -/
theorem Inv.seat_erase (hinv : Inv A w) {n i : Nat} {S : Seat ρ} {a : Act} {t : BtTabObj ρ}
    (h : Sits w n S) (ht : w.connectedTablets[i]? = some t)
    (htab : w'.connectedTablets = w.connectedTablets.eraseIdx i)
    (hlog : w'.log = w.log ++ [.closed t.serial])
    (hatt : t.serial ≠ n → w'.attention n = w.attention n)
    (hsocket : w.onSocket A n a = none) : Reseated A parse w n S a w' := by
  by_cases hn : t.serial = n
  · subst hn
    have hgone : t.serial ∉ (w.connectedTablets.eraseIdx i).map (·.serial) :=
      not_mem_serials_erase hinv.serials ht
    refine h.ends (Or.inr ?_) hlog (allSilent_closed _)
    show t.serial ∉ w'.connectedTablets.map (·.serial)
    rw [htab]
    exact hgone
  · obtain ⟨j, hj⟩ := List.mem_iff_getElem?.mp h.place
    exact h.stays (htab ▸ mem_erase_of_ne ht hn hj h.serial) (hatt hn) hlog
      (fun e he => owner_closed e he ▸ hn) hsocket

/-- A call for the tablet at index `i` returns; `closesocket` is noted. -/
theorem Inv.seat_call (hinv : Inv A w) {n i : Nat} {S : Seat ρ} {t : BtTabObj ρ}
    {p p' : Job (Option TransactionType)} {e : Event winsock} (h : Sits w n S)
    (hpc : w.pc = .polling i p) (hp : p.feed e = some p') (ht : w.connectedTablets[i]? = some t) :
    Reseated A parse w n S (.call e) (if e.1 = .closesocket then
      (w.goto (.polling i p')).note (.closed t.serial) else w.goto (.polling i p')) := by
  have hatt := attention_polling (n := n) hpc ht
  have hsocket : w.onSocket A n (.call e) = if t.serial = n then some e else none := by
    unfold onSocket
    dsimp only
    rw [hpc]
    dsimp only
    rw [serials_get w ht]
    exact if_congr Option.some_inj rfl rfl
  split
  · have hatt' : ((w.goto (.polling i p')).note (.closed t.serial)).attention n =
        if t.serial = n then .polling p' else .away := attention_polling rfl ht
    refine hinv.seat_still h ht rfl rfl owner_closed hsocket (fun hn => ?_) fun hn log => ?_
    · rw [hatt, hatt', if_neg hn, if_neg hn]
    · rw [hatt, hatt', if_pos hn, if_pos hn]
      exact .call rfl hp (allSilent_closed _)
  · have hatt' : (w.goto (.polling i p')).attention n =
        if t.serial = n then .polling p' else .away := attention_polling rfl ht
    refine hinv.seat_still h ht rfl (List.append_nil _).symm owner_nil hsocket (fun hn => ?_)
      fun hn log => ?_
    · rw [hatt, hatt', if_neg hn, if_neg hn]
    · rw [hatt, hatt', if_pos hn, if_pos hn]
      exact .call rfl hp allSilent_nil

/-- The code of the tablet at index `i` is served. -/
theorem Inv.seat_serve (hinv : Inv A w) {n i : Nat} {S : Seat ρ} {t : BtTabObj ρ}
    {c : TransactionType} {launch : Launch} {readWholeFile : Files} (h : Sits w n S)
    (hpc : w.pc = .polling i (.ret (some c))) (ht : w.connectedTablets[i]? = some t)
    (hfree : t.transactionState = false) : Reseated A parse w n S (.go launch readWholeFile)
      ((w.modifyAt i (Bluetooth.serve (w.pointer A i) launch readWholeFile c)).goto
        (.started i (w.pointer A i))) := by
  have hplace := keepsPlace_serve (w.pointer A i) launch readWholeFile c
  have hget := modifyAt_get w i (Bluetooth.serve (w.pointer A i) launch readWholeFile c) i
  rw [if_pos rfl, ht] at hget
  have hatt := attention_polling (n := n) hpc ht
  have hatt' : ((w.modifyAt i (Bluetooth.serve (w.pointer A i) launch readWholeFile
      c)).goto (.started i (w.pointer A i))).attention n =
      if t.serial = n then .started else .away :=
    attention_started (t := Bluetooth.serve (w.pointer A i) launch readWholeFile c t) rfl hget
  refine hinv.seat_at h ht hplace rfl (List.append_nil _).symm owner_nil (ite_self none).symm
    (fun hn => ?_) fun hn log => ?_
  · rw [hatt, hatt', if_neg hn, if_neg hn]
  · rw [hatt, hatt', if_pos hn, if_pos hn, List.append_nil]
    exact .serve rfl hfree

/-- A result is handled in the pass in which its code was read. -/
theorem Inv.seat_concludeReady (hinv : Inv A w) {n j : Nat} {S : Seat ρ} {q : ρ} {t : BtTabObj ρ}
    {r : Handled ρ} {launch : Launch} {readWholeFile : Files} (h : Sits w n S)
    (hpc : w.pc = .handling q t.serial (.ready j)) (ht : w.connectedTablets[j]? = some t)
    (hfree : t.transactionState = false) (hr : handleTransResult parse t.currTrans = .ok r) :
    Reseated A parse w n S (.go launch readWholeFile)
      { w.modifyAt j (settle r) with
        log := w.log ++ (asked t ++ concluded t r), pc := .ready (j + 1) } := by
  have hatt := attention_handling (n := n) hpc
  have hatt' : ({ w.modifyAt j (settle r) with
      log := w.log ++ (asked t ++ concluded t r)
      pc := .ready (j + 1) } : Bluetooth ρ).attention n = .away :=
    attention_away (Or.inr (Or.inl ⟨j + 1, rfl⟩))
  have hsettle : settle r t = setTransactionState false (settle r t) := by
    unfold setTransactionState settle
    rw [hfree]
  refine hinv.seat_at (l := asked t ++ concluded t r) h ht (keepsPlace_settle r) rfl rfl
    (fun e he => (List.mem_append.mp he).elim owner_asked owner_concluded) (ite_self none).symm
    (fun hn => ?_) fun hn log => ?_
  · rw [hatt, hatt', if_neg hn]
  · rw [hatt, hatt', if_pos hn, hsettle, ← List.append_nil (asked t ++ concluded t r)]
    exact .conclude rfl hr (allSilent_asked t) allSilent_nil

/-- The result of an entry of the queue is handled, and the tablet is released. -/
theorem Inv.seat_concludeRunning (hinv : Inv A w) {n i j : Nat} {S : Seat ρ} {q : ρ}
    {t : BtTabObj ρ} {r : Handled ρ} {launch : Launch} {readWholeFile : Files} (h : Sits w n S)
    (hpc : w.pc = .handling q t.serial (.running i)) (ht : w.connectedTablets[j]? = some t)
    (hr : handleTransResult parse t.currTrans = .ok r) :
    Reseated A parse w n S (.go launch readWholeFile)
      { w.modifyAt j (setTransactionState false ∘ settle r) with
        runningTransactions := w.runningTransactions.eraseIdx i
        log := w.log ++ (asked t ++ concluded t r ++ [.released (some t.serial) t.serial])
        pc := .running (i + 1) } := by
  have hatt := attention_handling (n := n) hpc
  have hatt' : ({ w.modifyAt j (setTransactionState false ∘ settle r) with
      runningTransactions := w.runningTransactions.eraseIdx i
      log := w.log ++ (asked t ++ concluded t r ++ [.released (some t.serial) t.serial])
      pc := .running (i + 1) } : Bluetooth ρ).attention n = .away :=
    attention_away (Or.inr (Or.inr ⟨i + 1, rfl⟩))
  refine hinv.seat_at (f := setTransactionState false ∘ settle r) h ht (fun _ => ⟨rfl, rfl⟩)
    rfl rfl (fun e he => ?_) (ite_self none).symm (fun hn => ?_) fun hn log => ?_
  · rcases List.mem_append.mp he with he | he
    · exact (List.mem_append.mp he).elim owner_asked owner_concluded
    · rw [List.mem_singleton.mp he]
      rfl
  · rw [hatt, hatt', if_neg hn]
  · rw [hatt, hatt', if_pos hn]
    refine .conclude rfl hr (allSilent_asked t) fun e he => ?_
    rw [List.mem_singleton.mp he]
    exact ⟨rfl, rfl⟩

/-- **Every deed of the server is one step of each tablet in its seat.** -/
theorem Inv.seat_deed (hinv : Inv A w) {n : Nat} {S : Seat ρ} {a : Act} (h : Sits w n S)
    (hd : Deed A parse w a w') : Reseated A parse w n S a w' := by
  cases hd with
  | nobody hidle =>
      exact h.stays h.place ((attention_away (Or.inr (Or.inl ⟨0, rfl⟩))).trans
        (attention_away (Or.inl hidle)).symm) (List.append_nil _).symm not_owner_nil rfl
  | accept hidle hw =>
      obtain ⟨_, htab, _, _, _, _, hlog, _⟩ := acceptConn_eq_some hw
      refine h.stays ?_ ((attention_away (Or.inr (Or.inl ⟨0, rfl⟩))).trans
        (attention_away (Or.inl hidle)).symm) (hlog.trans (List.append_nil _).symm) not_owner_nil
        rfl
      exact htab ▸ List.mem_append_left _ h.place
  | kill hidle hw =>
      rcases killSocket_eq_some hw with ⟨_, rfl⟩ | ⟨i, t, _, ht, _, rfl⟩
      · exact h.stays h.place rfl (List.append_nil _).symm not_owner_nil rfl
      · have hatt : ({ w with connectedTablets := w.connectedTablets.eraseIdx i }.note
            (.closed t.serial)).attention n = .away := attention_away (Or.inl hidle)
        exact hinv.seat_erase h ht rfl rfl
          (fun _ => hatt.trans (attention_away (Or.inl hidle)).symm) rfl
  | killAll hidle hw =>
      unfold Bluetooth.killAllSockets at hw
      split at hw
      · exact absurd hw (by simp)
      · cases hw
        refine h.ends (Or.inr List.not_mem_nil) rfl fun e he => ?_
        obtain ⟨t, _, rfl⟩ := List.mem_map.mp he
        exact ⟨rfl, rfl⟩
  | job ht hs hst hp hact _ => exact hinv.seat_job h ht hs hst hp hact
  | @ask i t launch readWholeFile hpc ht =>
      have hatt : w.attention n = .away := attention_away (Or.inr (Or.inl ⟨i, hpc⟩))
      have hatt' : (w.goto (.polling i (serveTablet t.transactionState))).attention n =
          if t.serial = n then .polling (serveTablet t.transactionState) else .away :=
        attention_polling rfl ht
      refine hinv.seat_still h ht rfl (List.append_nil _).symm owner_nil (ite_self none).symm
        (fun hn => ?_) fun hn log => ?_
      · rw [hatt, hatt', if_neg hn]
      · rw [hatt, hatt', if_pos hn, List.append_nil]
        exact .ask rfl
  | @readyDone i launch readWholeFile hpc _ =>
      exact h.stays h.place ((attention_away (Or.inr (Or.inr ⟨0, rfl⟩))).trans
        (attention_away (Or.inr (Or.inl ⟨i, hpc⟩))).symm) (List.append_nil _).symm not_owner_nil
        rfl
  | @call i p p' t e hpc hp ht =>
      exact hinv.seat_call h hpc hp ht
  | @pass i launch readWholeFile hpc =>
      have hpcok := hinv.pc
      rw [hpc] at hpcok
      obtain ⟨t, ht, _⟩ := hpcok
      have hatt := attention_polling (n := n) hpc ht
      have hatt' : (w.goto (.ready (i + 1))).attention n = .away :=
        attention_away (Or.inr (Or.inl ⟨i + 1, rfl⟩))
      refine hinv.seat_still h ht rfl (List.append_nil _).symm owner_nil (ite_self none).symm
        (fun hn => ?_) fun hn log => ?_
      · rw [hatt, hatt', if_neg hn]
      · rw [hatt, hatt', if_pos hn, List.append_nil]
        exact .pass rfl
  | @serve i c t launch readWholeFile hpc ht _ hfree =>
      exact hinv.seat_serve h hpc ht hfree
  | @goodbye i q t launch readWholeFile hpc ht _ =>
      have hatt := attention_started (n := n) hpc ht
      have hatt' : (({ w with connectedTablets := w.connectedTablets.eraseIdx i }.note
          (.closed t.serial)).goto (.ready (i + 1))).attention n = .away :=
        attention_away (Or.inr (Or.inl ⟨i + 1, rfl⟩))
      refine hinv.seat_erase h ht rfl rfl (fun hn => ?_) rfl
      rw [hatt, hatt', if_neg hn]
  | noFuture _ _ _ _ => exact h.ends (Or.inl rfl) rfl (allSilent_consultation _)
  | @ready i q t launch readWholeFile hpc ht hbatman _ =>
      have hatt := attention_started (n := n) hpc ht
      have hatt' : ((w.consult t).goto (.handling q t.serial (.ready i))).attention n =
          if t.serial = n then .handling else .away := attention_handling rfl
      refine hinv.seat_still h ht rfl rfl owner_consultation (ite_self none).symm (fun hn => ?_)
        fun hn log => ?_
      · rw [hatt, hatt', if_neg hn, if_neg hn]
      · rw [hatt, hatt', if_pos hn, if_pos hn]
        exact .ready rfl hbatman (allSilent_consultation _)
  | @queue i q t launch readWholeFile hpc ht hbatman _ =>
      have hatt := attention_started (n := n) hpc ht
      have hatt' : ((((w.consult t).push ⟨q, t.serial⟩).modifyAt i
          (setTransactionState true)).goto (.ready (i + 1))).attention n = .away :=
        attention_away (Or.inr (Or.inl ⟨i + 1, rfl⟩))
      refine hinv.seat_at (f := setTransactionState true) h ht (fun _ => ⟨rfl, rfl⟩) rfl rfl
        owner_consultation (ite_self none).symm (fun hn => ?_) fun hn log => ?_
      · rw [hatt, hatt', if_neg hn]
      · rw [hatt, hatt', if_pos hn]
        exact .queue rfl hbatman (allSilent_consultation _)
  | @wait j q t caller launch readWholeFile hpc ht _ _ =>
      have hatt := attention_handling (n := n) hpc
      have hatt' : ({ w with log := w.log ++ asked t }.modifyAt j start).attention n =
          if t.serial = n then .handling else .away := attention_handling hpc
      refine hinv.seat_at (f := start) h ht (fun _ => ⟨rfl, rfl⟩) rfl rfl
        (fun e he => owner_asked he) (ite_self none).symm (fun hn => ?_) fun hn log => ?_
      · rw [hatt, hatt']
      · rw [hatt, hatt', if_pos hn]
        exact .wait rfl (allSilent_asked t)
  | fault _ _ _ _ => exact h.ends (Or.inl rfl) rfl (allSilent_asked _)
  | @concludeReady j q t r launch readWholeFile hpc ht hfree hr =>
      exact hinv.seat_concludeReady h hpc ht hfree hr
  | @concludeRunning i j q t r launch readWholeFile hpc ht _ hr =>
      exact hinv.seat_concludeRunning h hpc ht hr
  | @queueDone i launch readWholeFile hpc _ =>
      exact h.stays h.place ((attention_away (Or.inl rfl)).trans
        (attention_away (Or.inr (Or.inr ⟨i, hpc⟩))).symm) (List.append_nil _).symm not_owner_nil
        rfl
  | lost _ _ _ _ _ => exact h.ends (Or.inl rfl) rfl (allSilent_consultation _)
  | @due i j e t launch readWholeFile hpc he ht hts _ =>
      have hatt : w.attention n = .away := attention_away (Or.inr (Or.inr ⟨i, hpc⟩))
      have hatt' : ((w.consult t).goto (.handling e.trans e.owner (.running i))).attention n =
          if e.owner = n then .handling else .away := attention_handling rfl
      refine hinv.seat_still h ht rfl rfl owner_consultation (ite_self none).symm (fun hn => ?_)
        fun hn log => ?_
      · rw [hatt, hatt', if_neg (hts ▸ hn)]
      · rw [hatt, hatt', if_pos (hts.symm.trans hn)]
        exact .due rfl (hinv.busy_of_entry he ht hts) (allSilent_consultation t)
  | @notYet i j e t launch readWholeFile hpc _ ht hts _ =>
      have hatt : w.attention n = .away := attention_away (Or.inr (Or.inr ⟨i, hpc⟩))
      have hatt' : ((w.consult t).goto (.running (i + 1))).attention n = .away :=
        attention_away (Or.inr (Or.inr ⟨i + 1, rfl⟩))
      refine hinv.seat_still h ht rfl rfl owner_consultation (ite_self none).symm (fun _ => ?_)
        fun hn log => ?_
      · rw [hatt, hatt']
      · rw [hatt, hatt']
        exact .still (allSilent_consultation t)

/-! ## Who is not in the table -/

/-- Nothing is noted of a tablet that is not in the table. -/
theorem Inv.mine_of_absent (hinv : Inv A w) {n : Nat} {a : Act} (hn : n ∉ w.serials)
    (hd : Deed A parse w a w') : mine n w'.log = mine n w.log := by
  have hmem : ∀ {i : Nat} {t : BtTabObj ρ} {l : List Effect}, w.connectedTablets[i]? = some t →
      w'.log = w.log ++ l → (∀ e ∈ l, e.owner = t.serial) → mine n w'.log = mine n w.log :=
    fun ht hlog hl => mine_of_owners hn hlog fun e he =>
      hl e he ▸ List.mem_map_of_mem (List.mem_of_getElem? ht)
  cases hd with
  | nobody _ => rfl
  | accept _ hw =>
      obtain ⟨_, _, _, _, _, _, hlog, _⟩ := acceptConn_eq_some hw
      exact congrArg (mine n) hlog
  | kill _ hw =>
      rcases killSocket_eq_some hw with ⟨_, rfl⟩ | ⟨i, t, _, ht, _, rfl⟩
      · rfl
      · exact hmem ht rfl owner_closed
  | killAll _ hw =>
      unfold Bluetooth.killAllSockets at hw
      split at hw
      · exact absurd hw (by simp)
      · cases hw
        refine mine_of_owners hn rfl fun e he => ?_
        obtain ⟨t, ht, rfl⟩ := List.mem_map.mp he
        exact List.mem_map_of_mem ht
  | job ht _ _ _ _ _ =>
      refine hmem ht rfl fun e' he' => ?_
      rw [List.mem_singleton.mp he']
      exact owner_jobEffect _ _
  | ask _ _ => rfl
  | readyDone _ _ => rfl
  | call _ _ ht =>
      split
      · rename_i hclose
        rw [if_pos hclose] at hmem
        exact hmem ht rfl owner_closed
      · rfl
  | pass _ => rfl
  | serve _ _ _ _ => rfl
  | goodbye _ ht _ => exact hmem ht rfl owner_closed
  | noFuture _ ht _ _ => exact hmem ht rfl owner_consultation
  | ready _ ht _ _ => exact hmem ht rfl owner_consultation
  | queue _ ht _ _ => exact hmem ht rfl owner_consultation
  | wait _ ht _ _ => exact hmem ht rfl fun e he => owner_asked he
  | fault _ ht _ _ => exact hmem ht rfl fun e he => owner_asked he
  | concludeReady _ ht _ _ =>
      exact hmem ht rfl fun e he => (List.mem_append.mp he).elim owner_asked owner_concluded
  | concludeRunning _ ht _ _ =>
      refine hmem ht rfl fun e he => ?_
      rcases List.mem_append.mp he with he | he
      · exact (List.mem_append.mp he).elim owner_asked owner_concluded
      · rw [List.mem_singleton.mp he]
        rfl
  | queueDone _ _ => rfl
  | lost _ _ ht _ _ => exact hmem ht rfl owner_consultation
  | due _ _ ht _ _ => exact hmem ht rfl owner_consultation
  | notYet _ _ ht _ _ => exact hmem ht rfl owner_consultation

end ScoutComputer.Bluetooth
