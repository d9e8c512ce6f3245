import ScoutComputer.Bluetooth.AccountProof
import ScoutComputer.Bluetooth.TableProof

/-!
# The server does not crash

As long as slots keep their tablets, what brings the server down is a code without a
case. Every other code either says goodbye or is given a future, and the vector a read
transfer ends with is always there, so nothing is ever consulted that does not exist.
-/

namespace ScoutComputer

open Interact

/-- A read transfer ends with a vector, be it an empty one. -/
theorem internalRead_isSome : Spec Bluetooth.unobserved internalRead () (fun _ => True)
    fun _ r => r.1.isSome = true := by
  refine Spec.bind (Spec.trivial _ ()) fun _ _ _ => ?_
  refine Spec.bind (Spec.trivial sendAck ()) fun _ acked _ => ?_
  split
  · exact Spec.bind (Spec.trivial _ ()) fun _ _ _ => Spec.ret trivial rfl
  · refine Spec.bind (Spec.trivial (readAllSocketData _ _) ()) fun _ size _ => ?_
    dsimp only
    split
    · refine Spec.bind (Spec.trivial sendNack ()) fun _ _ _ => ?_
      exact Spec.bind (Spec.trivial _ ()) fun _ _ _ => Spec.ret trivial rfl
    · refine Spec.bind (Spec.trivial sendAck ()) fun _ acked _ => ?_
      split
      · exact Spec.bind (Spec.trivial _ ()) fun _ _ _ => Spec.ret trivial rfl
      · refine Spec.bind (Spec.trivial (readAllSocketData _ _) ()) fun _ message _ => ?_
        split
        · exact Spec.bind (Spec.trivial sendNack ()) fun _ _ _ => Spec.ret trivial rfl
        · exact Spec.ret trivial rfl

namespace Bluetooth

variable {ρ : Type} {A : Addressing ρ} {parse : List Byte → Option Json} {w w' : Bluetooth ρ}
  {okCall : Event winsock → Prop}

/-- A code that says goodbye or starts a job. -/
def HasCase (c : TransactionType) : Prop := startsJob c = true ∨ isGoodbye c = true

instance (c : TransactionType) : Decidable (HasCase c) :=
  inferInstanceAs (Decidable (startsJob c = true ∨ isGoodbye c = true))

/-- What a session has in hand when its codes all have a case. -/
structure Session.Sane (S : Session ρ) : Prop where
  /-- The code under way was given a future. -/
  known : S.attended = true → S.tablet.currTrans.batmanTrans = false →
    startsJob S.tablet.currTrans.transactionType = true
  busy : S.tablet.transactionState = true → S.tablet.currTrans.batmanTrans = false
  /-- The future of a read code will have its vector. -/
  value : 0 < S.tablet.currTrans.transactionType → ∀ s, S.tablet.currTrans.data = some s →
    s.forCode = S.tablet.codesRead →
      Spec unobserved s.prog () (fun _ => True) fun _ r => r.1.isSome = true

/-- A goodbye marks the tablet for removal. -/
theorem batmanTrans_of_isGoodbye {c : TransactionType} (hc : isGoodbye c = true) (self : ρ)
    (launch : Launch) (readWholeFile : Files) (t : BtTabObj ρ) :
    (serve self launch readWholeFile c t).currTrans.batmanTrans = true := by
  have hbye : c = transSocketError ∨ c = transCloseSocket :=
    (Bool.or_eq_true_iff.mp hc).imp of_decide_eq_true of_decide_eq_true
  show (initReadyTransaction self launch readWholeFile t.serial (t.codesRead + 1)
    (t.currTrans.read self c)).batmanTrans = true
  unfold initReadyTransaction
  exact congrArg TabTransaction.batmanTrans (if_pos hbye)

theorem sane_serve {t : BtTabObj ρ} {log : List Effect} {c : TransactionType} (hc : HasCase c)
    (hfree : t.transactionState = false) (self : ρ) (launch : Launch) (readWholeFile : Files) :
    Session.Sane ⟨true, serve self launch readWholeFile c t, log⟩ := by
  obtain ⟨data, batmanTrans, success, writeTransaction, heq, _⟩ := initReadyTransaction_read
    self launch readWholeFile t.serial (t.codesRead + 1) c t.currTrans
  have hserve : (serve self launch readWholeFile c t).currTrans =
      ⟨some self, c, data, batmanTrans, success, writeTransaction⟩ := heq
  refine ⟨fun _ hstay => ?_, fun hbusy => ?_, fun hpos s hs _ => ?_⟩
  · rcases hc with hstart | hbye
    · rw [hserve]
      exact hstart
    · rw [batmanTrans_of_isGoodbye hbye] at hstay
      exact Bool.noConfusion hstay
  · have hbusy : t.transactionState = true := hbusy
    rw [hfree] at hbusy
    exact Bool.noConfusion hbusy
  · rw [hserve] at hpos
    have hread := initReadyTransaction_of_pos self self launch readWholeFile t.serial
      (t.codesRead + 1) t.currTrans hpos
    have hdata : (serve self launch readWholeFile c t).currTrans.data = some s := hs
    unfold serve at hdata
    dsimp only at hdata
    rw [hread] at hdata
    cases hdata
    exact internalRead_isSome

/-- Nothing that matters has changed, but for the queue. -/
theorem Session.Sane.same {S : Session ρ} (h : S.Sane) (S' : Session ρ)
    (hatt : S'.attended = true → S.attended = true)
    (hbatman : S'.tablet.currTrans.batmanTrans = S.tablet.currTrans.batmanTrans)
    (htype : S'.tablet.currTrans.transactionType = S.tablet.currTrans.transactionType)
    (hbusy : S'.tablet.transactionState = true → S.tablet.currTrans.batmanTrans = false)
    (hcodes : S'.tablet.codesRead = S.tablet.codesRead)
    (hdata : ∀ s', S'.tablet.currTrans.data = some s' → ∃ s, S.tablet.currTrans.data = some s ∧
      s'.prog = s.prog ∧ s'.forCode = s.forCode) : S'.Sane := by
  refine ⟨fun ha hstay => ?_, fun hb => hbatman.trans (hbusy hb), fun hpos s' hs' hf => ?_⟩
  · rw [htype]
    exact h.known (hatt ha) (hbatman ▸ hstay)
  · obtain ⟨s, hs, hprog, hfor⟩ := hdata s' hs'
    rw [hprog]
    exact h.value (htype ▸ hpos) s hs (hfor ▸ hf.trans hcodes)

theorem Session.Sane.work {t : BtTabObj ρ} {log log' : List Effect} {s : SharedState ρ}
    {prog : Job (Option (List Byte) × Bool)} {e : Event winsock}
    (h : Session.Sane ⟨true, t, log⟩) (hs : t.currTrans.data = some s)
    (hp : s.prog.feed e = some prog) : Session.Sane ⟨true, worked s prog e t, log'⟩ := by
  have hsame : ∀ {t' : BtTabObj ρ}, t' = advance s prog t ∨ (∃ b, t' = setFlag b (advance s prog t)) →
      Session.Sane ⟨true, t', log'⟩ := by
    intro t' ht'
    have hfields : t'.currTrans.batmanTrans = t.currTrans.batmanTrans ∧
        t'.currTrans.transactionType = t.currTrans.transactionType ∧
        t'.transactionState = t.transactionState ∧ t'.codesRead = t.codesRead ∧
        t'.currTrans.data = some { s with prog } := by
      rcases ht' with rfl | ⟨b, rfl⟩
      · exact ⟨rfl, rfl, rfl, rfl, rfl⟩
      · exact ⟨rfl, rfl, rfl, rfl, rfl⟩
    obtain ⟨hbatman, htype, hstate, hcodes, hdata⟩ := hfields
    refine ⟨fun _ hstay => ?_, fun hb => ?_, fun hpos s' hs' hf => ?_⟩
    · show startsJob t'.currTrans.transactionType = true
      rw [htype]
      exact h.known rfl (hbatman ▸ hstay)
    · exact hbatman.trans (h.busy (hstate ▸ hb))
    · have hs' : t'.currTrans.data = some s' := hs'
      rw [hdata] at hs'
      cases hs'
      exact (h.value (htype ▸ hpos) s hs (hf.trans hcodes)).feed hp trivial
  unfold worked
  split
  · exact hsame (Or.inr ⟨_, rfl⟩)
  · exact hsame (Or.inl rfl)

/-- **Preserved by every step** of a session whose codes all have a case. -/
theorem Session.Sane.step {S S' : Session ρ} (h : Session.Sane S)
    (hs : Session.Step parse okCall HasCase S S') : Session.Sane S' := by
  have hkeep : ∀ {t : BtTabObj ρ} (s' : SharedState ρ), t.currTrans.data = some s' →
      ∃ s, t.currTrans.data = some s ∧ s'.prog = s.prog ∧ s'.forCode = s.forCode :=
    fun s' hs' => ⟨s', hs', rfl, rfl⟩
  cases hs with
  | serve hc _ hfree => exact sane_serve hc hfree _ _ _
  | consult => exact h.same _ id rfl rfl h.busy rfl hkeep
  | queue hstay => exact h.same _ id rfl rfl (fun _ => hstay) rfl hkeep
  | work _ hs _ hp _ => exact h.work hs hp
  | ask => exact h.same _ id rfl rfl h.busy rfl hkeep
  | wait _ =>
      refine h.same _ id rfl rfl h.busy rfl fun s' hs' => ?_
      obtain ⟨s, hs, rfl⟩ := Option.map_eq_some_iff.mp hs'
      exact ⟨s, hs, rfl, rfl⟩
  | @conclude r t es log hr _ =>
      have hfields : r.trans.batmanTrans = t.currTrans.batmanTrans ∧
          r.trans.transactionType = t.currTrans.transactionType ∧
          ∀ s, r.trans.data = some s → t.currTrans.data = some s := by
        rcases handleTransResult_ok hr with ⟨_, htrans⟩ | ⟨_, htrans⟩
        · rw [htrans]
          exact ⟨rfl, rfl, fun _ => id⟩
        · rw [htrans]
          exact ⟨rfl, rfl, fun s hs => absurd hs (by simp)⟩
      refine h.same _ (fun ha => Bool.noConfusion ha) hfields.1 hfields.2.1
        (fun hb => Bool.noConfusion hb) rfl fun s' hs' => ?_
      exact ⟨s', hfields.2.2 s' hs', rfl, rfl⟩
  | close => exact h.same _ id rfl rfl h.busy rfl hkeep

theorem Session.Run.sane {S : Session ρ} (h : Session.Run parse okCall HasCase S) :
    Session.Sane S := by
  refine h.invariant (fun _ _ _ => ?_) fun S S' hS hs => hS.step hs
  refine ⟨fun ha => Bool.noConfusion ha, fun _ => rfl, fun hpos => ?_⟩
  exact absurd hpos (by simp [BtTabObj.ofSocket, TabTransaction.init])

/-! ## The server -/

/-- The tablet at an index, as its session has it. -/
theorem Sessions.sane (h : Sessions parse okCall HasCase w) (hinv : Inv A w) (hpc : w.pc ≠ .crashed)
    {j : Nat} {t : BtTabObj ρ} (ht : w.connectedTablets[j]? = some t) :
    ∃ log, Session.Sane ⟨attended w.pc j t, t, log⟩ := by
  have hserial := hinv.fresh _ (List.mem_map_of_mem (List.mem_of_getElem? ht))
  obtain ⟨S, hrun, _, _, htablet⟩ := h.each _ hserial
  obtain ⟨rfl, hatt⟩ := htablet j t ht rfl
  exact ⟨S.log, hatt hpc ▸ hrun.sane⟩

/-- A tablet with pointers to it that is not to be removed has a future. -/
theorem Sessions.hasFuture (h : Sessions parse okCall HasCase w) (hinv : Inv A w)
    (hpc : w.pc ≠ .crashed) {j : Nat} {t : BtTabObj ρ} (ht : w.connectedTablets[j]? = some t)
    (hact : active w.pc j t) (hstay : t.currTrans.batmanTrans = false) :
    ∃ s, t.currTrans.data = some s ∧ s.forCode = t.codesRead := by
  obtain ⟨_, hsane⟩ := h.sane hinv hpc ht
  have hstart := hsane.known (attended_iff.mpr hact) hstay
  exact Option.map_eq_some_iff.mp (((hinv.tablet j t ht).current hact).mpr hstart)

/-- Only what calls `get()` can go wrong. -/
theorem needsGet_of_fault {trans : TabTransaction ρ} {f : Fault}
    (h : handleTransResult parse trans = .error f) : trans.needsGet = true := by
  unfold handleTransResult at h
  split at h
  · exact absurd h (by simp)
  · rename_i hwrite
    split at h
    · rename_i htype
      simp [TabTransaction.needsGet, hwrite, htype]
    · split at h
      · rename_i htype
        simp [TabTransaction.needsGet, hwrite, htype]
      · exact absurd h (by simp)

/-- Handling a result of a session that is sane is at worst a matter of waiting. -/
theorem fault_eq_waiting {t : BtTabObj ρ} {s : SharedState ρ} {f : Fault}
    (hs : t.currTrans.data = some s) (hvalue : 0 < t.currTrans.transactionType →
      Spec unobserved s.prog () (fun _ => True) fun _ r => r.1.isSome = true)
    (hf : handleTransResult parse t.currTrans = .error f) : f = .waiting := by
  have hget : ∀ {f'}, t.currTrans.get = .error f' → f' = .waiting := by
    intro f' hg
    unfold TabTransaction.get at hg
    rw [hs] at hg
    dsimp only at hg
    split at hg
    · cases hg
      rfl
    · exact absurd hg (by simp)
  unfold handleTransResult at hf
  split at hf
  · exact absurd hf (by simp)
  · split at hf
    · rename_i htype
      cases hg : t.currTrans.get with
      | error f' =>
          rw [hg] at hf
          cases hf
          exact hget hg
      | ok res =>
          obtain ⟨v, trans'⟩ := res
          rw [hg] at hf
          cases v with
          | some vec =>
              simp only [bind, Except.bind] at hf
              split at hf
              · exact absurd hf (by simp)
              · exact absurd hf (by simp)
          | none =>
              -- the vector of a read transfer is always there
              have hsome := hvalue (by rw [htype]; decide)
              unfold TabTransaction.get at hg
              rw [hs] at hg
              dsimp only at hg
              split at hg
              · exact absurd hg (by simp)
              · rename_i r hr
                rw [Prog.result?_eq_some.mp hr] at hsome
                have hnone : r.1 = none := congrArg Prod.fst (Except.ok.inj hg)
                have hpost := hsome.post_of
                rw [hnone] at hpost
                exact Bool.noConfusion hpost
    · split at hf
      · cases hg : t.currTrans.get with
        | error f' =>
            rw [hg] at hf
            cases hf
            exact hget hg
        | ok res =>
            rw [hg] at hf
            exact absurd hf (by simp [bind, Except.bind])
      · exact absurd hf (by simp)

/-- No step of sane sessions crashes the server. -/
theorem Sessions.ne_crashed (h : Sessions parse okCall HasCase w) (hinv : Inv A w)
    (hpc : w.pc ≠ .crashed) {a : Act} (hd : Deed A parse w a w') : w'.pc ≠ .crashed := by
  intro hc
  cases hd with
  | nobody _ | accept _ _ | ask _ _ | readyDone _ _ | pass _ | serve _ _ _ _ | goodbye _ _ _
  | ready _ _ _ _ | queue _ _ _ _ | concludeReady _ _ _ _ | concludeRunning _ _ _ _
  | queueDone _ _ | due _ _ _ _ _ | notYet _ _ _ _ _ => cases hc
  | job _ _ _ _ _ _ | wait _ _ _ _ => exact hpc hc
  | kill hidle hw =>
      rcases killSocket_eq_some hw with ⟨_, rfl⟩ | ⟨_, _, _, _, _, rfl⟩
      · exact hpc hc
      · exact hpc hc
  | killAll hidle hw =>
      unfold Bluetooth.killAllSockets at hw
      split at hw
      · exact absurd hw (by simp)
      · cases hw
        exact hpc hc
  | call hpoll _ _ =>
      split at hc
      · cases hc
      · cases hc
  | noFuture hstarted ht hstay hnone =>
      obtain ⟨s, hs, _⟩ := h.hasFuture hinv hpc ht (Or.inr (by rw [hstarted]; rfl)) hstay
      rw [hnone] at hs
      exact absurd hs (by simp)
  | lost hrunning he ht hts hnone =>
      have hbusy := hinv.busy_of_entry he ht hts
      obtain ⟨_, hsane⟩ := h.sane hinv hpc ht
      obtain ⟨s, hs, _⟩ := h.hasFuture hinv hpc ht (Or.inl hbusy) (hsane.busy hbusy)
      rw [hnone] at hs
      exact absurd hs (by simp)
  | @fault j q t caller f launch readWholeFile hhandling ht hf hne =>
      have hact := hinv.active_of_handling hhandling ht rfl
      have hstart := startsJob_of_needsGet (needsGet_of_fault hf)
      obtain ⟨s, hs, hfor⟩ :=
        Option.map_eq_some_iff.mp (((hinv.tablet j t ht).current hact).mpr hstart)
      obtain ⟨_, hsane⟩ := h.sane hinv hpc ht
      exact hne (fault_eq_waiting hs (fun hpos => hsane.value hpos s hs hfor) hf)

/-- A step that is safe for the slots in use, and serves no tablet for a code without a case. -/
def slotKnown (w : Bluetooth (Nat × Nat)) (a : Act) : Bool :=
  slotSafe w a && match a, w.pc with
    | .go _ _, .polling _ p => p.result?.all fun r => r.all fun c => decide (HasCase c)
    | _, _ => true

theorem lets_slotKnown :
    Lets (fun w a => slotKnown w a = true) (fun _ => True) HasCase where
  call _ _ _ _ := trivial
  code w i c launch readWholeFile hpoll h := by
    have hcase := (Bool.and_eq_true_iff.mp h).2
    rw [hpoll] at hcase
    exact of_decide_eq_true hcase

section
variable {w : Bluetooth (Nat × Nat)}

/-- Without a crash the invariant holds, and while it does no step crashes the server. -/
theorem inv_ne_crashed (h : Run slots parse (fun w a => slotKnown w a = true) w) :
    Inv slots w ∧ w.pc ≠ .crashed := by
  induction h with
  | init => exact ⟨inv_init, fun hc => Pc.noConfusion rfl (heq_of_eq hc)⟩
  | @step w w' a hrun ha hs ih =>
      obtain ⟨hinv, hpc⟩ := ih
      have hkeeps : ∀ {w w' : Bluetooth (Nat × Nat)} {a : Act}, Inv slots w →
          slotKnown w a = true → w.act slots parse a = some w' → StepKeeps slots w w' a :=
        fun hi hok hw => stepKeeps_slots hi (Bool.and_eq_true_iff.mp hok).1 hw
      obtain ⟨-, hsessions⟩ := sessions_run (fun _ _ _ hi hok hw => hkeeps hi hok hw)
        lets_slotKnown hrun
      have hpc' := hsessions.ne_crashed hinv hpc (hinv.deed hs)
      obtain ⟨hsound, -⟩ := sessions_run (fun _ _ _ hi hok hw => hkeeps hi hok hw)
        lets_slotKnown (hrun.step ha hs)
      exact ⟨hsound.resolve_right fun hc => hpc' hc.1, hpc'⟩

end

/--
**Only a code without a case brings the server down**: in every run in which slots keep their
tablets and each code that is served says goodbye or starts a job, nothing undefined is done.
-/
theorem ne_crashed_of_slotKnown (parse : List Byte → Option Json) (w : Bluetooth (Nat × Nat))
    (h : Run slots parse (fun w a => slotKnown w a = true) w) : w.pc ≠ .crashed :=
  (inv_ne_crashed h).2

theorem ne_crashed_of_slotKnown_red : ∃ w : Bluetooth (Nat × Nat),
    w.log.contains (.named (some 0) 0 (bytes "red")) = true ∧ w.pc ≠ .crashed := by
  have h : ((Steps.replay (act slots fun _ => none) slotKnown namesItself init).map fun w =>
      w.log.contains (.named (some 0) 0 (bytes "red"))) = some true := by decide +kernel
  obtain ⟨w, hw, hlog⟩ := Option.map_eq_some_iff.mp h
  exact ⟨w, hlog, ne_crashed_of_slotKnown (fun _ => none) w
    (Steps.run_of_replay (fun _ _ h => h) .init hw)⟩

end Bluetooth

end ScoutComputer
