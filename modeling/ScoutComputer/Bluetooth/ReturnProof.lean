import ScoutComputer.Bluetooth.FutureProof
import ScoutComputer.Bluetooth.TableProof
import ScoutComputer.Lib.Variant

/-!
# The main thread gets back

A call of `updateAllBt` goes on a bounded number of times, whatever the tablets do, and
there is always a way for it to return: nothing it waits for waits for it.
-/

namespace ScoutComputer.Bluetooth

open Interact Steps

variable {ρ : Type} {A : Addressing ρ} {parse : List Byte → Option Json} {w w' : Bluetooth ρ}

/-! ## How often it goes on -/

/-- The steps of a call that is under way. -/
def inPass : Act → Bool
  | .call _ | .go _ _ | .job _ _ => true
  | _ => false

/-- How often a step makes the main thread go on. -/
def goes : Act → Nat
  | .go _ _ => 1
  | _ => 0

/-- Whether the job of a tablet has started, if it has one. -/
def jobStarted (t : BtTabObj ρ) : Option Bool := t.currTrans.data.map (·.started)

/-- How often it may go on in `handleTransResult`: twice if the job has not started. -/
def patience (A : Addressing ρ) (w : Bluetooth ρ) (q : ρ) : Nat :=
  if (w.deref A q).bind jobStarted = some false then 2 else 1

def pending (w : Bluetooth ρ) : Nat := w.runningTransactions.length

/-- How often it may still go on from index `i` of the tablets. -/
def fromReady (w : Bluetooth ρ) (i : Nat) : Nat := 6 * (w.size - i) + 3 * w.pending + 2

/-- How often it may still go on from index `i` of the queue. -/
def fromRunning (w : Bluetooth ρ) (i : Nat) : Nat := 3 * (w.pending - i) + 1

/-- How often it may still go on once a result has been handled. -/
def fromCaller (w : Bluetooth ρ) : Caller → Nat
  | .ready i => w.fromReady (i + 1)
  | .running i => w.fromRunning (i + 1)

/-- How often the main thread may still go on before it returns. -/
def remaining (A : Addressing ρ) (w : Bluetooth ρ) : Nat :=
  match w.pc with
  | .idle | .crashed => 0
  | .ready i => w.fromReady i
  | .polling i _ => w.fromReady (i + 1) + 5
  | .started i _ => w.fromReady (i + 1) + 4
  | .handling q _ caller => w.fromCaller caller + patience A w q
  | .running i => w.fromRunning i

theorem patience_le (w : Bluetooth ρ) (q : ρ) : patience A w q ≤ 2 := by
  unfold patience
  split <;> omega

theorem patience_pos (w : Bluetooth ρ) (q : ρ) : 0 < patience A w q := by
  unfold patience
  split <;> omega

/-- No more tablets and no more transactions. -/
theorem fromReady_le {i : Nat} (hsize : w'.size ≤ w.size) (hpending : w'.pending ≤ w.pending) :
    w'.fromReady i ≤ w.fromReady i := by
  unfold fromReady
  omega

theorem fromRunning_le {i : Nat} (hpending : w'.pending ≤ w.pending) :
    w'.fromRunning i ≤ w.fromRunning i := by
  unfold fromRunning
  omega

theorem remaining_ready {i : Nat} (hpc : w.pc = .ready i) : remaining A w = w.fromReady i := by
  unfold remaining
  rw [hpc]

theorem remaining_running {i : Nat} (hpc : w.pc = .running i) :
    remaining A w = w.fromRunning i := by
  unfold remaining
  rw [hpc]

theorem remaining_crashed (hpc : w.pc = .crashed) : remaining A w = 0 := by
  unfold remaining
  rw [hpc]

theorem pc_modify (w : Bluetooth ρ) (p : ρ) (f : BtTabObj ρ → BtTabObj ρ) :
    (w.modify A p f).pc = w.pc := by
  unfold Bluetooth.modify
  cases w.index A p with
  | none => rfl
  | some i => rfl

theorem pending_modify (w : Bluetooth ρ) (p : ρ) (f : BtTabObj ρ → BtTabObj ρ) :
    (w.modify A p f).pending = w.pending := congrArg List.length (modify_queue w p f).1

/-- Which jobs have started is all that `patience` looks at. -/
theorem patience_eq (hindex : w'.index A = w.index A)
    (hstarted : w'.connectedTablets.map jobStarted = w.connectedTablets.map jobStarted) (q : ρ) :
    patience A w' q = patience A w q := by
  have hderef : ∀ w : Bluetooth ρ, (w.deref A q).bind jobStarted =
      (w.index A q).bind fun i => (w.connectedTablets.map jobStarted)[i]?.join := by
    intro w
    unfold deref
    cases w.index A q with
    | none => rfl
    | some i =>
        rw [Option.bind_some, Option.bind_some, List.getElem?_map]
        cases w.connectedTablets[i]? <;> rfl
  unfold patience
  rw [hderef, hderef, hindex, hstarted]

theorem jobStarted_modify (w : Bluetooth ρ) (p : ρ) {f : BtTabObj ρ → BtTabObj ρ}
    (hf : ∀ t, jobStarted (f t) = jobStarted t) :
    (w.modify A p f).connectedTablets.map jobStarted = w.connectedTablets.map jobStarted := by
  unfold Bluetooth.modify
  cases w.index A p with
  | none => rfl
  | some i => exact Lists.map_modify_of_eq hf _ _

/-- A job goes on, and the main thread is where it was. -/
theorem remaining_job {i : Nat} {e : Event winsock} (h : w.jobReturned A i e = some w') :
    remaining A w' = remaining A w := by
  obtain ⟨hstill, hpc, hqueue⟩ := Still.job h
  have hsize : w'.size = w.size := by
    have hlen := congrArg List.length hstill.sockets
    unfold sockets at hlen
    rwa [List.length_map, List.length_map] at hlen
  have hpending : w'.pending = w.pending := congrArg List.length hqueue
  have hpatience : ∀ q, patience A w' q = patience A w q := by
    refine patience_eq hstill.index ?_
    obtain ⟨t, s, prog, ht, hs, _, _, hw'⟩ := jobReturned_eq_some h
    have hadvance : (w.modifyAt i (advance s prog)).connectedTablets.map jobStarted =
        w.connectedTablets.map jobStarted := by
      refine Lists.map_modify_of_get ht ?_
      unfold jobStarted
      rw [hs]
      rfl
    rcases hw' with ⟨b, _, rfl⟩ | rfl
    · have hflag := jobStarted_modify (A := A) (f := setFlag b) (w.modifyAt i (advance s prog))
        s.success fun _ => rfl
      exact hflag.trans hadvance
    · exact hadvance
  have hready : ∀ i, w'.fromReady i = w.fromReady i := by
    intro i
    unfold fromReady
    rw [hsize, hpending]
  have hrunning : ∀ i, w'.fromRunning i = w.fromRunning i := by
    intro i
    unfold fromRunning
    rw [hpending]
  have hcaller : ∀ caller, w'.fromCaller caller = w.fromCaller caller := by
    intro caller
    cases caller with
    | ready i => exact hready _
    | running i => exact hrunning _
  unfold remaining
  rw [hpc]
  split <;> simp only [hpatience, hready, hrunning, hcaller]

/-- A call of the main thread returns, and it still makes calls for the same tablet. -/
theorem remaining_call {e : Event winsock} (h : w.callReturned e = some w') :
    remaining A w' = remaining A w := by
  unfold callReturned at h
  split at h
  · rename_i i p hpc
    split at h
    · have hw : remaining A w = w.fromReady (i + 1) + 5 := by
        unfold remaining
        rw [hpc]
      rw [hw]
      split at h
      · cases h
        rfl
      · cases h
        rfl
    · exact absurd h (by simp)
  · exact absurd h (by simp)

theorem remaining_polled {i : Nat} {r : Option TransactionType} {launch : Launch}
    {readWholeFile : Files} (h : w.polled A launch readWholeFile i r = some w') :
    remaining A w' < w.fromReady (i + 1) + 5 := by
  cases r with
  | none =>
      cases h
      show w.fromReady (i + 1) < _
      omega
  | some c =>
      obtain ⟨t, _, _, rfl⟩ := polled_some h
      show (w.modifyAt i _).fromReady (i + 1) + 4 < _
      have hle := fromReady_le (i := i + 1) (Nat.le_of_eq (size_modifyAt w i
        (serve (w.pointer A i) launch readWholeFile c))) (Nat.le_refl w.pending)
      exact Nat.lt_succ_of_le (Nat.add_le_add_right hle 4)

theorem remaining_startedTrans {i : Nat} {q : ρ} (h : w.startedTrans A i q = some w') :
    remaining A w' < w.fromReady (i + 1) + 4 := by
  unfold startedTrans at h
  split at h
  · cases h
    exact Nat.succ_pos _
  · rename_i t _
    dsimp only at h
    split at h
    · split at h
      · cases h
        exact Nat.succ_pos _
      · obtain ⟨w₁, hw₁, rfl⟩ := Option.map_eq_some_iff.mp h
        have hpending : w₁.pending ≤ w.pending := by
          rcases killSocket_eq_some hw₁ with ⟨_, rfl⟩ | ⟨_, _, _, _, _, rfl⟩
          · exact Nat.le_refl _
          · exact Nat.le_refl w.pending
        have hle := fromReady_le (i := i + 1) (size_killSocket hw₁) hpending
        show w₁.fromReady (i + 1) < _
        omega
    · split at h
      · cases h
        exact Nat.succ_pos _
      · cases h
        show w.fromReady (i + 1) + patience A ((w.consult t).goto _) q < _
        have hle := patience_le (A := A) ((w.consult t).goto (.handling q t.serial (.ready i))) q
        omega
      · split at h
        · cases h
          exact Nat.succ_pos _
        · rename_i parent _
          cases h
          show (((w.consult t).push ⟨q, t.serial⟩).modify A parent _).fromReady (i + 1) < _
          unfold fromReady
          rw [size_modify, pending_modify]
          show 6 * (w.size - (i + 1)) + 3 * (w.runningTransactions ++ [_]).length + 2 < _
          rw [List.length_append]
          show _ < 6 * (w.size - (i + 1)) + 3 * w.runningTransactions.length + 2 + 4
          simp only [List.length_singleton]
          omega

/-- What is waited for has not returned. -/
theorem data_of_waiting {trans : TabTransaction ρ}
    (h : handleTransResult parse trans = .error .waiting) :
    ∃ s, trans.data = some s ∧ s.prog.result? = none := by
  have hget : trans.get = .error .waiting := by
    unfold handleTransResult at h
    split at h
    · exact absurd h (by simp)
    · split at h
      · cases hg : trans.get with
        | error f =>
            rw [hg] at h
            cases h
            rfl
        | ok res =>
            obtain ⟨v, trans'⟩ := res
            rw [hg] at h
            cases v with
            | none => exact absurd h (by simp [bind, Except.bind])
            | some vec =>
                simp only [bind, Except.bind] at h
                split at h
                · exact absurd h (by simp)
                · exact absurd h (by simp)
      · split at h
        · cases hg : trans.get with
          | error f =>
              rw [hg] at h
              cases h
              rfl
          | ok res =>
              rw [hg] at h
              exact absurd h (by simp [bind, Except.bind])
        · exact absurd h (by simp)
  unfold TabTransaction.get at hget
  split at hget
  · exact absurd hget (by simp)
  · rename_i s hs
    split at hget
    · rename_i hres
      exact ⟨s, hs, hres⟩
    · exact absurd hget (by simp)

/-- A job is waited for only if it has not started, and then it starts. -/
theorem patience_wait {q : ρ} {t : BtTabObj ρ} (hderef : w.deref A q = some t)
    (hwait : handleTransResult parse t.currTrans = .error .waiting) (hstop : t.jobRunning = false) :
    patience A (w.modify A q start) q < patience A w q := by
  obtain ⟨i, hi, ht⟩ := deref_eq_some.mp hderef
  obtain ⟨s, hs, hres⟩ := data_of_waiting hwait
  have hstarted : s.started = false := by
    unfold BtTabObj.jobRunning at hstop
    rw [hs] at hstop
    simpa [hres] using hstop
  have hbefore : patience A w q = 2 := by
    unfold patience jobStarted
    rw [hderef, Option.bind_some, hs, Option.map_some, hstarted, if_pos rfl]
  have hafter : patience A (w.modify A q start) q = 1 := by
    unfold patience
    have hindex : (w.modifyAt i start).index A q = some i :=
      (congrFun (Quiet.index (quiet_modifyAt ht rfl)) q).trans hi
    rw [modify_of_index hi]
    have hget : (w.modifyAt i start).deref A q = some (start t) := by
      refine deref_eq_some.mpr ⟨i, hindex, ?_⟩
      rw [modifyAt_get, if_pos rfl, ht]
      rfl
    rw [hget, Option.bind_some]
    unfold jobStarted start
    rw [hs]
    exact if_neg (by simp)
  omega

theorem remaining_handled {w' : Bluetooth ρ} {q : ρ} {owner : Nat} {caller : Caller} {r : Handled ρ}
    (hw' : w.handled A q owner caller r = w') : remaining A w' ≤ w.fromCaller caller := by
  subst hw'
  have hsize := size_handled (A := A) w q owner caller r
  unfold handled at hsize ⊢
  dsimp only at hsize ⊢
  cases hparent : r.trans.parent with
  | none => exact Nat.zero_le _
  | some p =>
      rw [hparent] at hsize
      dsimp only at hsize ⊢
      have hname : ∀ w : Bluetooth ρ, (w.name A p owner r.name).pending = w.pending := by
        intro w
        cases r.name with
        | none => rfl
        | some name => exact pending_modify w p _
      have hpending : (((w.modify A q (store r.trans)).note (.submitted owner r.statements)).name A p
          owner r.name).pending = w.pending := (hname _).trans (pending_modify w q _)
      cases caller with
      | ready i => exact fromReady_le (Nat.le_of_eq hsize) (Nat.le_of_eq hpending)
      | running i =>
          refine fromRunning_le (w := w) ?_
          refine Nat.le_trans (Nat.le_of_eq (pending_modify _ p _)) ?_
          exact Nat.le_trans (List.length_eraseIdx_le _ i) (Nat.le_of_eq hpending)

theorem remaining_handle {q : ρ} {owner : Nat} {caller : Caller}
    (hpc : w.pc = .handling q owner caller) (h : w.handle A parse q owner caller = some w') :
    remaining A w' < remaining A w := by
  have hw : ∀ w : Bluetooth ρ, w.pc = .handling q owner caller →
      remaining A w = w.fromCaller caller + patience A w q := by
    intro w hpc
    unfold remaining
    rw [hpc]
  have hpos := patience_pos (A := A) w q
  rw [hw w hpc]
  rcases handle_cases h with ⟨_, rfl⟩ | ⟨t, w₁, hderef, hconsult, hcase⟩
  · rw [remaining_crashed rfl]
    omega
  obtain ⟨es, rfl⟩ := eq_of_consulted hconsult
  rcases hcase with ⟨hwait, hstop, rfl⟩ | rfl | ⟨r, hr, rfl⟩
  · have hless := patience_wait (w := { w with log := w.log ++ es }) hderef hwait hstop
    have hsame : patience A { w with log := w.log ++ es } q = patience A w q := rfl
    have hthere := hw (({ w with log := w.log ++ es } : Bluetooth ρ).modify A q start)
      ((pc_modify _ _ _).trans hpc)
    have hsize : (({ w with log := w.log ++ es } : Bluetooth ρ).modify A q start).fromCaller
        caller = w.fromCaller caller := by
      cases caller with
      | ready i =>
          show _ = w.fromReady (i + 1)
          unfold fromCaller fromReady
          rw [size_modify, pending_modify]
          rfl
      | running i =>
          show _ = w.fromRunning (i + 1)
          unfold fromCaller fromRunning
          rw [pending_modify]
          rfl
    omega
  · rw [remaining_crashed rfl]
    omega
  · have hle : remaining A (({ w with log := w.log ++ es } : Bluetooth ρ).handled A q owner caller
        r) ≤ fromCaller { w with log := w.log ++ es } caller := remaining_handled rfl
    have hsame : fromCaller { w with log := w.log ++ es } caller = w.fromCaller caller := by
      cases caller <;> rfl
    omega

theorem remaining_checkRunning {i : Nat} (hpc : w.pc = .running i) :
    remaining A (w.checkRunning A i) < remaining A w := by
  rw [remaining_running hpc]
  unfold checkRunning
  split
  · exact Nat.succ_pos _
  · rename_i e he
    have hlt : i < w.pending := (List.getElem?_eq_some_iff.mp he).1
    split
    · exact Nat.succ_pos _
    · dsimp only
      split
      · exact Nat.succ_pos _
      · show w.fromRunning (i + 1) + patience A _ _ < _
        have hle : ∀ w' : Bluetooth ρ, patience A w' e.trans ≤ 2 := fun w' => patience_le w' _
        unfold fromRunning
        refine Nat.lt_of_le_of_lt (Nat.add_le_add_left (hle _) _) ?_
        show 3 * (w.pending - (i + 1)) + 1 + 2 < _
        omega
      · show w.fromRunning (i + 1) < _
        unfold fromRunning
        omega

/-- **Each time it goes on, it has less to do.** -/
theorem remaining_go {launch : Launch} {readWholeFile : Files}
    (h : w.go A parse launch readWholeFile = some w') : remaining A w' < remaining A w := by
  unfold Bluetooth.go at h
  split at h
  · rename_i i hpc
    rw [remaining_ready hpc]
    split at h
    · cases h
      show w.fromRunning 0 < _
      unfold fromRunning fromReady
      omega
    · rename_i t ht
      cases h
      show w.fromReady (i + 1) + 5 < _
      have hlt : i < w.size := (List.getElem?_eq_some_iff.mp ht).1
      unfold fromReady
      omega
  · rename_i i p hpc
    obtain ⟨r, _, h⟩ := Option.bind_eq_some_iff.mp h
    have hw : remaining A w = w.fromReady (i + 1) + 5 := by
      unfold remaining
      rw [hpc]
    rw [hw]
    exact remaining_polled h
  · rename_i i q hpc
    have hw : remaining A w = w.fromReady (i + 1) + 4 := by
      unfold remaining
      rw [hpc]
    rw [hw]
    exact remaining_startedTrans h
  · rename_i q owner caller hpc
    exact remaining_handle hpc h
  · rename_i i hpc
    cases h
    exact remaining_checkRunning hpc
  · exact absurd h (by simp)
  · exact absurd h (by simp)

/-- A step of a call that is under way costs what it goes on. -/
theorem goes_add_remaining {a : Act} (hpass : inPass a = true) (h : w.act A parse a = some w') :
    goes a + remaining A w' ≤ remaining A w := by
  unfold Bluetooth.act at h
  cases a with
  | call e =>
      have heq := remaining_call (A := A) h
      show 0 + _ ≤ _
      omega
  | go launch readWholeFile =>
      have hlt := remaining_go h
      show 1 + _ ≤ _
      omega
  | job i e =>
      dsimp only at h
      split at h
      · exact absurd h (by simp)
      · have heq := remaining_job h
        show 0 + _ ≤ _
        omega
  | updateAllBt _ _ => exact Bool.noConfusion hpass
  | killSocket _ => exact Bool.noConfusion hpass
  | killAllSockets => exact Bool.noConfusion hpass

/--
**A call of `updateAllBt` goes on a bounded number of times**: whatever the tablets send and
the jobs do, at most six times for each tablet and three times for each transaction there are
when it is called, and twice more.
-/
theorem goes_le (A : Addressing ρ) (parse : List Byte → Option Json) (w w₁ w' : Bluetooth ρ)
    (peer : Option (Socket × List Byte)) (grow : Nat)
    (hcall : w.act A parse (.updateAllBt peer grow) = some w₁) (l : List (Bluetooth ρ × Act))
    (h : Path (act A parse) (fun _ a => inPass a = true) w₁ l w') :
    (l.map fun x => goes x.2).sum ≤
      6 * (w.connectedTablets.length + 1) + 3 * w.runningTransactions.length + 2 := by
  have hle := h.cost_le (remaining A) goes fun _ _ _ hpass hs => goes_add_remaining hpass hs
  unfold Bluetooth.act at hcall
  dsimp only at hcall
  split at hcall
  · obtain ⟨w₂, hw₂, rfl⟩ := Option.map_eq_some_iff.mp hcall
    have hsizes : w₂.connectedTablets.length ≤ w.connectedTablets.length + 1 ∧
        w₂.runningTransactions = w.runningTransactions := by
      cases peer with
      | none =>
          cases hw₂
          exact ⟨Nat.le_succ _, rfl⟩
      | some peer =>
          obtain ⟨_, htab, _, _, _, hqueue, _⟩ := acceptConn_eq_some hw₂
          refine ⟨?_, hqueue⟩
          rw [htab, List.length_append]
          exact Nat.le_refl _
    have hready : remaining A (w₂.goto (.ready 0)) = 6 * (w₂.connectedTablets.length - 0) +
        3 * w₂.runningTransactions.length + 2 := rfl
    rw [hready, hsizes.2] at hle
    omega
  · exact absurd hcall (by simp)

/-- Two tablets are there and a third joins; the first starts a transfer. -/
theorem goes_le_three : ∃ (w w₁ w' : Bluetooth (Nat × Nat))
    (l : List (Bluetooth (Nat × Nat) × Act)), w.connectedTablets.length = 2 ∧
    w.act slots (fun _ => none) (joins 12) = some w₁ ∧
    Path (act slots fun _ => none) (fun _ a => inPass a = true) w₁ l w' ∧
    (l.map fun x => goes x.2).sum = 10 ∧
    (l.map fun x => goes x.2).sum ≤
      6 * (w.connectedTablets.length + 1) + 3 * w.runningTransactions.length + 2 := by
  have h : ((replay (act slots fun _ => none) (fun _ _ => true) twoJoin init).bind fun w =>
      (w.act slots (fun _ => none) (joins 12)).bind fun w₁ =>
        (record (act slots fun _ => none) (fun _ a => inPass a)
          (sendsCode 2 ++ [onward, onward] ++ firstCalls 0 ++ passedOver ++ passedOver ++
            [onward, onward, onward]) w₁).map fun r =>
              (w.connectedTablets.length, (r.1.map fun x => goes x.2).sum)) = some (2, 10) := by
    decide +kernel
  obtain ⟨w, -, h⟩ := Option.bind_eq_some_iff.mp h
  obtain ⟨w₁, hw₁, h⟩ := Option.bind_eq_some_iff.mp h
  obtain ⟨⟨l, w'⟩, hl, h⟩ := Option.map_eq_some_iff.mp h
  obtain ⟨hlen, hsum⟩ := Prod.mk.inj h
  have hpath := path_of_record (fun _ _ hpass => hpass) hl
  exact ⟨w, w₁, w', l, hlen, hw₁, hpath, hsum,
    goes_le slots (fun _ => none) w w₁ w' (some (12, [])) 8 hw₁ l hpath⟩

end ScoutComputer.Bluetooth
