import ScoutComputer.Bluetooth.CrashProof
import ScoutComputer.Bluetooth.ReturnProof
import ScoutComputer.Lib.Lively

/-!
# Nothing waits for ever

Whatever has happened so far, if every socket now fails then every routine comes to its
end, so every job does, and the main thread with them: the call of `updateAllBt` under way
can return. Pointers that have gone astray do not change this (`Supple`), but they and
codes without a case may crash the server on the way, so the way is chosen among the steps
that keep it up (`slotKnown`).

That needs a choice to be left: a code without a case that has been read will be served,
and a tablet that has said goodbye will be removed, whoever stands behind it. `Bearable`
says that the tablet in hand is neither; jobs keep it, and each step of the main thread
leads from a state that is bearable to another one with less to do.
-/

namespace ScoutComputer

open Interact

/-- An answer that ends a loop: the socket fails for good. -/
def givesUp : (c : Call) → c.Res → Prop
  | .recv _, .ret _ => False
  | .recv _, .err code => code ≠ wsaEWouldBlock ∧ code ≠ wsaEInProgress
  | .send _, .ret _ => False
  | .send _, .err code => code ≠ wsaEWouldBlock
  | _, _ => True

/-- A socket that may do anything, and may fail at any time. -/
def hangUp : Pace winsock Unit where
  allow _ _ _ := True
  next _ _ _ := ()
  asks _ _ := True
  work := givesUp

/-- At every point of `p`, it comes to its end if the socket fails. -/
abbrev CanEnd {α : Type} (p : Job α) : Prop := Live hangUp p () fun _ _ => True

section
variable {α β : Type}

theorem canEnd_ret (a : α) : CanEnd (.ret a) := Live.ret trivial

theorem canEnd_call {c : Call} {k : c.Res → Job α} (h : ∀ r, CanEnd (k r)) :
    CanEnd (Prog.call (I := winsock) c k) := Live.call trivial fun r _ => h r

theorem canEnd_bind {p : Job α} {f : α → Job β} (hp : CanEnd p) (hf : ∀ a, CanEnd (f a)) :
    CanEnd (p.bind f) := Live.bind hp fun _ a _ => hf a

theorem canEnd_perform (c : Call) : CanEnd (Prog.perform (I := winsock) c) :=
  canEnd_call fun r => canEnd_ret r

theorem canEnd_set (ref : SuccessRef) (b : Bool) : CanEnd (ref.set b) := by
  cases ref with
  | loc => exact canEnd_ret ()
  | trans => exact canEnd_perform _

/-- Every program of finitely many calls comes to an end. -/
theorem exists_after {p : Job α} (h : CanEnd p) : ∃ t a, p.after t = some (.ret a) := by
  refine Swift.ends (fun _ c => ?_) h.swift
  cases c with
  | malloc _ => exact ⟨true, trivial, trivial⟩
  | getTime _ => exact ⟨(0 : Rat), trivial, trivial⟩
  | recv _ => exact ⟨.err 0, trivial, by decide, by decide⟩
  | send _ => exact ⟨.err 0, trivial, show (0 : Int) ≠ wsaEWouldBlock by decide⟩
  | select _ => exact ⟨(0 : Int), trivial, trivial⟩
  | closesocket => exact ⟨(), trivial, trivial⟩
  | setSuccess _ => exact ⟨(), trivial, trivial⟩

end

/-! ## The routines -/

theorem canEnd_recvLoop (sizeExpected : Nat) (timeoutTime : Rat) :
    CanEnd (recvLoop sizeExpected timeoutTime) := by
  refine Live.loop (fun _ _ => True) (fun _ _ => 0) trivial fun s _ _ => ⟨trivial, fun r _ => ?_⟩
  have hcheck : ∀ {t : Rat} {f : Job (RecvLoop ⊕ Option (List Byte))}
      {post : Unit → RecvLoop ⊕ Option (List Byte) → Prop}, post () (.inr none) →
      Live hangUp f () post → Live hangUp ((getTime (some t)).bind fun now =>
        if now > t then .ret (.inr none) else f) () post := by
    intro t f post hnone hf
    refine Live.call trivial fun now _ => ?_
    show Live _ (if _ then _ else _) _ _
    split
    · exact Live.ret hnone
    · exact hf
  show Live _ (recvIteration sizeExpected s r) _ _
  cases r with
  | err code =>
      refine hcheck (canEnd_ret none) ?_
      show Live _ (if _ then _ else _) _ _
      split
      · rename_i hagain
        refine Live.ret ⟨trivial, fun hwork => ?_⟩
        obtain ⟨hblock, hprogress⟩ : code ≠ wsaEWouldBlock ∧ code ≠ wsaEInProgress := hwork
        exact absurd hagain (not_or.mpr ⟨hblock, hprogress⟩)
      · exact Live.ret (canEnd_ret none)
  | ret got =>
      cases got with
      | nil => exact hcheck (canEnd_ret none) (Live.ret (canEnd_ret none))
      | cons b got =>
          refine Live.call trivial fun now _ => hcheck (canEnd_ret none) ?_
          show Live _ (if _ then _ else _) _ _
          split
          · exact Live.ret ⟨trivial, fun hwork => False.elim hwork⟩
          · exact Live.ret (canEnd_ret _)

theorem canEnd_readAllSocketData (ref : SuccessRef) (n : Nat) :
    CanEnd (readAllSocketData ref n) := by
  refine canEnd_bind (canEnd_set ref true) fun _ => canEnd_bind (canEnd_perform _) fun now => ?_
  split
  · exact canEnd_bind (canEnd_set ref true) fun _ => canEnd_ret _
  · refine canEnd_bind (canEnd_perform _) fun dataPtr => ?_
    split
    · exact canEnd_bind (canEnd_set ref false) fun _ => canEnd_ret _
    · refine canEnd_bind (canEnd_recvLoop n _) fun data => ?_
      cases data with
      | none => exact canEnd_bind (canEnd_set ref false) fun _ => canEnd_ret _
      | some data => exact canEnd_ret _

theorem canEnd_sendToSocket (data : List Byte) : CanEnd (sendToSocket data) := by
  unfold sendToSocket
  split
  · exact canEnd_ret true
  · refine Live.loop (fun _ _ => True) (fun _ _ => 0) trivial fun s _ _ => ⟨trivial, fun r _ => ?_⟩
    show Live _ (sendIteration data s r) _ _
    cases r with
    | err code =>
        show Live _ (if _ then _ else _) _ _
        split
        · rename_i hagain
          exact Live.ret ⟨trivial, fun hwork => absurd hagain hwork⟩
        · exact Live.ret (canEnd_ret false)
    | ret n =>
        show Live _ (if _ then _ else _) _ _
        split
        · exact Live.ret ⟨trivial, fun hwork => False.elim hwork⟩
        · exact Live.ret (canEnd_ret true)

theorem canEnd_sendAllocated (size : Nat) (data : List Byte) :
    CanEnd (sendAllocated size data) := by
  refine canEnd_bind (canEnd_perform _) fun ok => ?_
  split
  · exact canEnd_ret false
  · exact canEnd_sendToSocket data

theorem canEnd_readAck : CanEnd readAck := by
  refine canEnd_bind (canEnd_perform _) fun ok => ?_
  split
  · exact canEnd_ret false
  · refine canEnd_bind (canEnd_readAllSocketData _ _) fun ⟨data, success⟩ => ?_
    dsimp only
    split
    · exact canEnd_ret false
    · exact canEnd_ret _

theorem canEnd_internalRead : CanEnd internalRead := by
  refine canEnd_bind (canEnd_set _ _) fun _ => ?_
  refine canEnd_bind (canEnd_sendAllocated _ _) fun acked => ?_
  split
  · exact canEnd_bind (canEnd_set _ _) fun _ => canEnd_ret _
  · refine canEnd_bind (canEnd_readAllSocketData _ _) fun ⟨size, success⟩ => ?_
    dsimp only
    split
    · refine canEnd_bind (canEnd_sendAllocated _ _) fun _ => ?_
      exact canEnd_bind (canEnd_set _ _) fun _ => canEnd_ret _
    · refine canEnd_bind (canEnd_sendAllocated _ _) fun acked => ?_
      split
      · exact canEnd_bind (canEnd_set _ _) fun _ => canEnd_ret _
      · refine canEnd_bind (canEnd_readAllSocketData _ _) fun ⟨message, success⟩ => ?_
        dsimp only
        split
        · exact canEnd_bind (canEnd_sendAllocated _ _) fun _ => canEnd_ret _
        · exact canEnd_ret _

theorem canEnd_andThen (success : Bool) {p : Job Bool} (hp : CanEnd p) :
    CanEnd (andThen success p) := by
  have hset : ∀ success, CanEnd ((SuccessRef.trans.set success).bind fun _ => .ret success) :=
    fun success => canEnd_bind (canEnd_set _ _) fun _ => canEnd_ret _
  unfold andThen
  split
  · exact canEnd_bind hp hset
  · exact canEnd_bind (canEnd_ret false) hset

theorem canEnd_internalWrite (data : List Byte) : CanEnd (internalWrite data) := by
  refine canEnd_bind (canEnd_set _ _) fun _ => ?_
  refine canEnd_bind (canEnd_andThen _ (canEnd_sendToSocket _)) fun success => ?_
  refine canEnd_bind (canEnd_andThen _ canEnd_readAck) fun success => ?_
  split
  · exact canEnd_ret _
  · refine canEnd_bind (canEnd_andThen _ (canEnd_sendToSocket _)) fun success => ?_
    exact canEnd_bind (canEnd_andThen _ canEnd_readAck) fun success => canEnd_ret _

theorem canEnd_selectReady (write : Bool) : CanEnd (selectReady write) := by
  refine canEnd_bind (canEnd_perform _) fun sockState => ?_
  split
  · exact canEnd_ret false
  · exact canEnd_ret _

theorem canEnd_serveTablet (undergoingTransaction : Bool) :
    CanEnd (serveTablet undergoingTransaction) := by
  refine canEnd_bind (canEnd_selectReady _) fun ready => ?_
  split
  · exact canEnd_ret none
  · refine canEnd_bind ?_ fun c => canEnd_bind ?_ fun _ => canEnd_ret _
    · refine canEnd_bind (canEnd_selectReady _) fun ready => ?_
      split
      · exact canEnd_ret _
      · refine canEnd_bind (canEnd_selectReady _) fun ready => ?_
        split
        · exact canEnd_ret _
        · refine canEnd_bind (canEnd_readAllSocketData _ _) fun ⟨res, success⟩ => ?_
          dsimp only
          split
          · exact canEnd_ret _
          · exact canEnd_ret _
    · unfold farewell
      split
      · exact canEnd_bind (canEnd_sendAllocated _ _) fun _ => canEnd_perform _
      · split
        · exact canEnd_perform _
        · exact canEnd_ret ()

namespace Bluetooth

open Steps

variable {ρ : Type} {A : Addressing ρ} {parse : List Byte → Option Json} {w w' : Bluetooth ρ}

/-! ## Every job can end -/

/-- The job of a tablet, if it has one, can end. -/
def JobCanEnd (t : BtTabObj ρ) : Prop := ∀ s, t.currTrans.data = some s → CanEnd s.prog

theorem jobCanEnd_of_data {t t' : BtTabObj ρ} (h : JobCanEnd t)
    (hdata : ∀ s', t'.currTrans.data = some s' → ∃ s, t.currTrans.data = some s ∧
      s'.prog = s.prog) : JobCanEnd t' := by
  intro s' hs'
  obtain ⟨s, hs, hprog⟩ := hdata s' hs'
  rw [hprog]
  exact h s hs

/-- A new code is given a job that can end, or leaves the old one. -/
theorem jobCanEnd_serve {t : BtTabObj ρ} (h : JobCanEnd t) (self : ρ) (launch : Launch)
    (readWholeFile : Files) (c : TransactionType) :
    JobCanEnd (serve self launch readWholeFile c t) := by
  intro s hs
  have hs : (initReadyTransaction self launch readWholeFile t.serial (t.codesRead + 1)
    (t.currTrans.read self c)).data = some s := hs
  unfold initReadyTransaction at hs
  split at hs
  · exact h s hs
  · split at hs
    · unfold handleWriteTransactions at hs
      split at hs
      · exact h s hs
      · cases hs
        exact canEnd_internalWrite _
    · cases hs
      exact canEnd_internalRead

/-- Every job of a table can end. -/
def JobsCanEnd (w : Bluetooth ρ) : Prop := ∀ t ∈ w.connectedTablets, JobCanEnd t

theorem JobsCanEnd.modifyAt {i : Nat} {f : BtTabObj ρ → BtTabObj ρ} (h : JobsCanEnd w)
    (hf : ∀ t, w.connectedTablets[i]? = some t → JobCanEnd t → JobCanEnd (f t)) :
    JobsCanEnd (w.modifyAt i f) := by
  intro t' ht'
  obtain ⟨j, hj⟩ := List.mem_iff_getElem?.mp ht'
  rw [modifyAt_get] at hj
  split at hj
  · rename_i hij
    subst hij
    obtain ⟨t, ht, rfl⟩ := Option.map_eq_some_iff.mp hj
    exact hf t ht (h t (List.mem_of_getElem? ht))
  · exact h t' (List.mem_of_getElem? hj)

theorem JobsCanEnd.modify {p : ρ} {f : BtTabObj ρ → BtTabObj ρ} (h : JobsCanEnd w)
    (hf : ∀ t, JobCanEnd t → JobCanEnd (f t)) : JobsCanEnd (w.modify A p f) := by
  unfold Bluetooth.modify
  cases w.index A p with
  | none => exact h
  | some i => exact h.modifyAt fun t _ => hf t

theorem JobsCanEnd.sublist {l : List (BtTabObj ρ)} (h : JobsCanEnd w)
    (hl : ∀ t ∈ l, t ∈ w.connectedTablets) (hw' : w'.connectedTablets = l) : JobsCanEnd w' := by
  intro t ht
  rw [hw'] at ht
  exact h t (hl t ht)

theorem JobsCanEnd.killSocket {s : Socket} (h : JobsCanEnd w) (hw : w.killSocket s = some w') :
    JobsCanEnd w' := by
  rcases killSocket_eq_some hw with ⟨_, rfl⟩ | ⟨i, t, _, _, _, rfl⟩
  · exact h
  · exact h.sublist (fun t ht => List.mem_of_mem_eraseIdx ht) rfl

/-- Setting nothing of the job leaves it as it is. -/
theorem jobCanEnd_same {f : BtTabObj ρ → BtTabObj ρ}
    (hf : ∀ t, (f t).currTrans.data = t.currTrans.data) (t : BtTabObj ρ) (h : JobCanEnd t) :
    JobCanEnd (f t) :=
  jobCanEnd_of_data h fun s hs => ⟨s, (hf t) ▸ hs, rfl⟩

theorem JobsCanEnd.handled {q : ρ} {owner : Nat} {caller : Caller} {r : Handled ρ}
    {t : BtTabObj ρ} (h : JobsCanEnd w) (hderef : w.deref A q = some t)
    (hr : handleTransResult parse t.currTrans = .ok r) :
    JobsCanEnd (w.handled A q owner caller r) := by
  have hstored : JobsCanEnd (w.modify A q (store r.trans)) := by
    obtain ⟨i, hi, ht⟩ := deref_eq_some.mp hderef
    rw [modify_of_index hi]
    refine h.modifyAt fun u hu hjob s hs => ?_
    rw [ht] at hu
    cases hu
    have hs : r.trans.data = some s := hs
    rcases handleTransResult_ok hr with ⟨_, htrans⟩ | ⟨_, htrans⟩
    · rw [htrans] at hs
      exact hjob s hs
    · rw [htrans] at hs
      exact absurd hs (by simp)
  have hnamed : ∀ (w : Bluetooth ρ) (p : ρ), JobsCanEnd w → JobsCanEnd (w.name A p owner r.name) := by
    intro w p hw
    cases r.name with
    | none => exact hw
    | some name => exact hw.modify (jobCanEnd_same fun _ => rfl)
  unfold Bluetooth.handled
  dsimp only
  cases r.trans.parent with
  | none => exact hstored
  | some p =>
      have hname := hnamed ((w.modify A q (store r.trans)).note (.submitted owner r.statements)) p
        hstored
      cases caller with
      | ready i => exact hname
      | running i =>
          have herased := JobsCanEnd.modify (A := A) (p := p) (f := setTransactionState false)
            (w := Bluetooth.erase _ i) hname (jobCanEnd_same fun _ => rfl)
          exact herased

theorem JobsCanEnd.go {launch : Launch} {readWholeFile : Files} (h : JobsCanEnd w)
    (hw : w.go A parse launch readWholeFile = some w') : JobsCanEnd w' := by
  unfold Bluetooth.go at hw
  split at hw
  · split at hw
    · cases hw
      exact h
    · cases hw
      exact h
  · obtain ⟨r, _, hw⟩ := Option.bind_eq_some_iff.mp hw
    cases r with
    | none =>
        cases hw
        exact h
    | some c =>
        obtain ⟨t, _, _, rfl⟩ := polled_some hw
        exact h.modifyAt fun t _ ht => jobCanEnd_serve ht _ _ _ _
  · unfold Bluetooth.startedTrans at hw
    split at hw
    · cases hw
      exact h
    · dsimp only at hw
      split at hw
      · split at hw
        · cases hw
          exact h
        · obtain ⟨w₁, hw₁, rfl⟩ := Option.map_eq_some_iff.mp hw
          have hkill := h.killSocket hw₁
          exact hkill
      · split at hw
        · cases hw
          exact h
        · cases hw
          exact h
        · split at hw
          · cases hw
            exact h
          · cases hw
            exact JobsCanEnd.modify (w := Bluetooth.push _ _) h (jobCanEnd_same fun _ => rfl)
  · rcases handle_cases hw with ⟨_, rfl⟩ | ⟨t, w₁, hderef, hconsult, hcase⟩
    · exact h
    · obtain ⟨es, rfl⟩ := eq_of_consulted hconsult
      rcases hcase with ⟨_, _, rfl⟩ | rfl | ⟨r, hr, rfl⟩
      · refine JobsCanEnd.modify (w := { w with log := w.log ++ es }) h fun t ht => ?_
        refine jobCanEnd_of_data ht fun s' hs' => ?_
        obtain ⟨s, hs, rfl⟩ := Option.map_eq_some_iff.mp hs'
        exact ⟨s, hs, rfl⟩
      · exact h
      · exact JobsCanEnd.handled (w := { w with log := w.log ++ es }) h hderef hr
  · cases hw
    unfold checkRunning
    split
    · exact h
    · split
      · exact h
      · dsimp only
        split
        · exact h
        · exact h
        · exact h
  · exact absurd hw (by simp)
  · exact absurd hw (by simp)

theorem JobsCanEnd.job {i : Nat} {e : Event winsock} (h : JobsCanEnd w)
    (hw : w.jobReturned A i e = some w') : JobsCanEnd w' := by
  obtain ⟨t, s, prog, ht, hs, _, hp, hw'⟩ := jobReturned_eq_some hw
  have hadvance : JobsCanEnd (w.modifyAt i (advance s prog)) := by
    refine h.modifyAt fun u hu hjob s' hs' => ?_
    rw [ht] at hu
    cases hu
    cases hs'
    exact (hjob s hs).feed hp trivial
  rcases hw' with ⟨b, _, rfl⟩ | rfl
  · exact hadvance.modify (jobCanEnd_same fun _ => rfl)
  · exact hadvance

/-! ## What can end stays so -/

/-- **The invariant**: every routine that is under way can end. -/
structure Supple (A : Addressing ρ) (w : Bluetooth ρ) : Prop where
  table : TableInv A w
  polls : ∀ i p, w.pc = .polling i p → i < w.size ∧ CanEnd p
  jobs : JobsCanEnd w

theorem supple_init : Supple A (init : Bluetooth ρ) where
  table := tableInv_init
  polls _ _ h := Pc.noConfusion rfl (heq_of_eq h)
  jobs _ h := absurd h List.not_mem_nil

theorem Supple.polls_step (h : Supple A w) {a : Act} (hw : w.act A parse a = some w') {i : Nat}
    {p : Job (Option TransactionType)} (hpc : w'.pc = .polling i p) : i < w'.size ∧ CanEnd p := by
  cases (h.table.tableStep hw).handStep (by rw [hpc]; rfl) with
  | job hstill hsame =>
      have hlen := congrArg List.length hstill.sockets
      unfold sockets at hlen
      rw [List.length_map, List.length_map] at hlen
      have hsize : w'.size = w.size := hlen
      rw [hsize]
      exact h.polls i p (hsame.symm.trans hpc)
  | ask ht =>
      cases hpc
      exact ⟨(List.getElem?_eq_some_iff.mp ht).1, canEnd_serveTablet _⟩
  | call hpc₀ hf ht hpc' htab =>
      rw [hpc'] at hpc
      cases hpc
      unfold size
      rw [htab]
      exact ⟨(List.getElem?_eq_some_iff.mp ht).1, ((h.polls _ _ hpc₀).2).feed hf trivial⟩
  | serve _ _ _ => cases hpc

theorem Supple.step (h : Supple A w) {a : Act} (hw : w.act A parse a = some w') :
    Supple A w' := by
  refine ⟨h.table.step (h.table.tableStep hw), fun i p hpc => h.polls_step hw hpc, ?_⟩
  unfold Bluetooth.act at hw
  cases a with
  | updateAllBt peer grow =>
      dsimp only at hw
      split at hw
      · obtain ⟨w₁, hw₁, rfl⟩ := Option.map_eq_some_iff.mp hw
        cases peer with
        | none =>
            cases hw₁
            exact h.jobs
        | some peer =>
            obtain ⟨_, htab, _⟩ := acceptConn_eq_some hw₁
            intro t ht
            have ht : t ∈ w₁.connectedTablets := ht
            rw [htab] at ht
            rcases List.mem_append.mp ht with ht | ht
            · exact h.jobs t ht
            · rw [List.mem_singleton.mp ht]
              exact fun s hs => absurd hs (by simp [BtTabObj.ofSocket, TabTransaction.init])
      · exact absurd hw (by simp)
  | call e =>
      dsimp only at hw
      unfold callReturned at hw
      split at hw
      · split at hw
        · split at hw
          · cases hw
            exact h.jobs
          · cases hw
            exact h.jobs
        · exact absurd hw (by simp)
      · exact absurd hw (by simp)
  | go launch readWholeFile => exact h.jobs.go hw
  | job i e =>
      dsimp only at hw
      split at hw
      · exact absurd hw (by simp)
      · exact h.jobs.job hw
  | killSocket deleteSock =>
      dsimp only at hw
      split at hw
      · exact h.jobs.killSocket hw
      · exact absurd hw (by simp)
  | killAllSockets =>
      dsimp only at hw
      split at hw
      · unfold Bluetooth.killAllSockets at hw
        split at hw
        · exact absurd hw (by simp)
        · cases hw
          exact fun t ht => absurd ht List.not_mem_nil
      · exact absurd hw (by simp)

theorem supple_of_run {ok : Bluetooth ρ → Act → Prop} (h : Run A parse ok w) : Supple A w :=
  Steps.Run.invariant h supple_init fun _ _ _ hs _ hw => hs.step hw

def isJob : Act → Bool
  | .job _ _ => true
  | _ => false

def isCall : Act → Bool
  | .call _ => true
  | _ => false

/-- Steps of one kind. -/
abbrev Only (A : Addressing ρ) (parse : List Byte → Option Json) (kind : Act → Bool)
    (w : Bluetooth ρ) (l : List (Bluetooth ρ × Act)) (w' : Bluetooth ρ) : Prop :=
  Path (act A parse) (fun _ a => kind a = true) w l w'

/-! ## Bringing the jobs to their end -/

/-- The futures of the table. -/
def futures (w : Bluetooth ρ) : List (Option (SharedState ρ)) :=
  w.connectedTablets.map (·.currTrans.data)

/-- A future whose job is under way. -/
def underWay : Option (SharedState ρ) → Bool
  | none => false
  | some s => s.started && s.prog.result?.isNone

theorem futures_getElem? {i : Nat} {d : Option (SharedState ρ)} :
    w.futures[i]? = some d ↔ ∃ t, w.connectedTablets[i]? = some t ∧ t.currTrans.data = d := by
  unfold futures
  rw [List.getElem?_map, Option.map_eq_some_iff]

theorem futures_modify (w : Bluetooth ρ) (p : ρ) {f : BtTabObj ρ → BtTabObj ρ}
    (hf : ∀ t, (f t).currTrans.data = t.currTrans.data) : (w.modify A p f).futures = w.futures := by
  unfold Bluetooth.modify
  cases w.index A p with
  | none => rfl
  | some i => exact Lists.map_modify_of_eq hf _ _

/-- Any answer may be given to a job that waits for one. -/
theorem exists_jobReturned {i : Nat} {s : SharedState ρ} {e : Event winsock}
    {prog : Job (Option (List Byte) × Bool)} (hs : w.futures[i]? = some (some s))
    (hst : s.started = true) (hp : s.prog.feed e = some prog) :
    ∃ w', w.jobReturned A i e = some w' ∧ w'.pc = w.pc ∧
      w'.futures = w.futures.set i (some { s with prog }) := by
  obtain ⟨t, ht, hdata⟩ := futures_getElem?.mp hs
  have hadvance : (w.modifyAt i (advance s prog)).futures =
      w.futures.set i (some { s with prog }) := Lists.map_modify_set fun _ => rfl
  have hflag : ∀ b, ((w.modifyAt i (advance s prog)).modify A s.success (setFlag b)).futures =
      w.futures.set i (some { s with prog }) :=
    fun b => (futures_modify _ _ (f := setFlag b) fun _ => rfl).trans hadvance
  unfold jobReturned
  rw [ht, Option.bind_eq_bind, Option.bind_some, hdata, Option.bind_eq_bind, Option.bind_some,
    if_pos hst, hp, Option.bind_eq_bind, Option.bind_some]
  obtain ⟨c, r⟩ := e
  cases c with
  | setSuccess b => exact ⟨_, rfl, pc_modify _ _ _, hflag b⟩
  | _ => exact ⟨_, rfl, rfl, hadvance⟩

/-- A job can be given all the answers of a trace. -/
theorem exists_leads_job {i : Nat} {s : SharedState ρ} {t : List (Event winsock)}
    {prog : Job (Option (List Byte) × Bool)} (hpc : w.pc ≠ .crashed)
    (hs : w.futures[i]? = some (some s)) (hst : s.started = true)
    (hp : s.prog.after t = some prog) :
    ∃ l w', Only A parse isJob w l w' ∧ w'.pc = w.pc ∧
      w'.futures = w.futures.set i (some { s with prog }) := by
  induction t generalizing w s with
  | nil =>
      cases hp
      refine ⟨[], w, .nil, rfl, List.ext_getElem? fun j => ?_⟩
      rw [List.getElem?_set]
      split
      · rename_i hij
        subst hij
        rw [hs, if_pos (List.getElem?_eq_some_iff.mp hs).1]
      · rfl
  | cons e t ih =>
      obtain ⟨p', hp', hp⟩ := (Prog.after_cons (I := winsock)).mp hp
      obtain ⟨w₁, hw₁, hpc₁, hfut₁⟩ := exists_jobReturned (A := A) hs hst hp'
      have hlen : i < w.futures.length := (List.getElem?_eq_some_iff.mp hs).1
      have hs₁ : w₁.futures[i]? = some (some { s with prog := p' }) := by
        rw [hfut₁, List.getElem?_set_self hlen]
      obtain ⟨l, w', hl, hpc', hfut'⟩ := ih (hpc₁ ▸ hpc) hs₁ hst hp
      refine ⟨_, w', .cons (a := .job i e) rfl ?_ hl, hpc'.trans hpc₁, ?_⟩
      · unfold act
        dsimp only
        split
        · rename_i hcrash
          exact absurd hcrash hpc
        · exact hw₁
      · rw [hfut', hfut₁, List.set_set]

/-- All jobs can be brought to their end, with the main thread where it was. -/
theorem Supple.exists_leads_quiet (h : Supple A w) (hpc : w.pc ≠ .crashed) :
    ∃ l w', Only A parse isJob w l w' ∧ w'.pc = w.pc ∧
      ∀ t ∈ w'.connectedTablets, t.jobRunning = false := by
  have hfall : ∀ w₁, Supple A w₁ ∧ w₁.pc = w.pc → ¬ (∀ d ∈ w₁.futures, underWay d = false) →
      ∃ l w₂, Only A parse isJob w₁ l w₂ ∧ (Supple A w₂ ∧ w₂.pc = w.pc) ∧
        w₂.futures.countP underWay < w₁.futures.countP underWay := by
    rintro w₁ ⟨h₁, hpc₁⟩ hnot
    obtain ⟨d, hd, hunder⟩ : ∃ d ∈ w₁.futures, underWay d = true := by
      by_contra hno
      exact hnot fun d hd => Bool.eq_false_iff.mpr fun hu => hno ⟨d, hd, hu⟩
    obtain ⟨i, hi⟩ := List.mem_iff_getElem?.mp hd
    cases d with
    | none => exact Bool.noConfusion hunder
    | some s =>
        have hst : s.started = true := (Bool.and_eq_true_iff.mp hunder).1
        obtain ⟨t, ht, hdata⟩ := futures_getElem?.mp hi
        obtain ⟨tr, a, htr⟩ := exists_after (h₁.jobs t (List.mem_of_getElem? ht) s hdata)
        obtain ⟨l, w₂, hl, hpc₂, hfut⟩ := exists_leads_job (hpc₁ ▸ hpc) hi hst htr
        have hsupple₂ := hl.invariant h₁ fun _ _ _ hs _ hw => hs.step hw
        refine ⟨l, w₂, hl, ⟨hsupple₂, hpc₂.trans hpc₁⟩, ?_⟩
        obtain ⟨hlt, hget⟩ := List.getElem?_eq_some_iff.mp hi
        have hpos : 0 < w₁.futures.countP underWay := List.countP_pos_iff.mpr ⟨_, hd, hunder⟩
        have hover : underWay (some { s with prog := .ret a }) = false := by
          unfold underWay
          simp
        rw [hfut, List.countP_set hlt, hget, hunder, hover]
        simp only [if_true, Bool.false_eq_true, if_false]
        omega
  obtain ⟨l, w', hl, ⟨_, hpc'⟩, hquiet⟩ := exists_path_of_variant _ hfall ⟨h, rfl⟩
  refine ⟨l, w', hl, hpc', fun t ht => ?_⟩
  exact hquiet _ (List.mem_map_of_mem ht)

/-! ## Bringing the main thread on -/

/-- The calls for a tablet can be given all the answers of a trace. -/
theorem exists_leads_poll {i : Nat} {p q : Job (Option TransactionType)}
    {t : List (Event winsock)} (hi : i < w.size) (hpc : w.pc = .polling i p)
    (hp : p.after t = some q) :
    ∃ l w', Only A parse isCall w l w' ∧ w'.pc = .polling i q ∧
      w'.connectedTablets = w.connectedTablets := by
  induction t generalizing w p with
  | nil =>
      cases hp
      exact ⟨[], w, .nil, hpc, rfl⟩
  | cons e t ih =>
      obtain ⟨p', hp', hp⟩ := (Prog.after_cons (I := winsock)).mp hp
      obtain ⟨t₀, ht₀⟩ : ∃ t₀, w.connectedTablets[i]? = some t₀ :=
        ⟨_, List.getElem?_eq_getElem hi⟩
      obtain ⟨w₁, hw₁, hpc₁, htab₁⟩ : ∃ w₁, w.callReturned e = some w₁ ∧
          w₁.pc = .polling i p' ∧ w₁.connectedTablets = w.connectedTablets := by
        unfold callReturned
        rw [hpc]
        dsimp only
        rw [hp', ht₀]
        dsimp only
        refine ⟨_, rfl, ?_, ?_⟩
        · split <;> rfl
        · split <;> rfl
      have hi₁ : i < w₁.size := by
        unfold size
        rw [htab₁]
        exact hi
      obtain ⟨l, w', hl, hpc', htab'⟩ := ih hi₁ hpc₁ hp
      have hact : w.act A parse (.call e) = some w₁ := hw₁
      exact ⟨_, w', .cons rfl hact hl, hpc', htab'.trans htab₁⟩

/-- With no job under way the main thread can go on, wherever it has a result to go on with. -/
theorem exists_go (hquiet : ∀ t ∈ w.connectedTablets, t.jobRunning = false)
    (hidle : w.pc ≠ .idle) (hcrash : w.pc ≠ .crashed)
    (hpoll : ∀ i p, w.pc = .polling i p → i < w.size ∧ ∃ r, p = .ret r) :
    ∃ launch w', w.go A parse launch (fun _ => []) = some w' := by
  have hkill : ∀ s, ∃ w', w.killSocket s = some w' := by
    intro s
    unfold Bluetooth.killSocket findSocket
    by_cases hs : s ∈ w.sockets
    · rw [if_pos hs]
      have hlt : w.sockets.idxOf s < w.connectedTablets.length := by
        have hlt := List.idxOf_lt_length_of_mem hs
        unfold sockets at hlt ⊢
        rwa [List.length_map] at hlt
      dsimp only
      rw [List.getElem?_eq_getElem hlt]
      dsimp only
      rw [hquiet _ (List.getElem_mem hlt)]
      exact ⟨_, rfl⟩
    · rw [if_neg hs]
      exact ⟨_, rfl⟩
  unfold Bluetooth.go
  cases hpc : w.pc with
  | idle => exact absurd hpc hidle
  | crashed => exact absurd hpc hcrash
  | ready i =>
      dsimp only
      cases w.connectedTablets[i]? with
      | none => exact ⟨.async, _, rfl⟩
      | some t => exact ⟨.async, _, rfl⟩
  | polling i p =>
      obtain ⟨hi, r, rfl⟩ := hpoll i p hpc
      cases r with
      | none => exact ⟨.async, _, rfl⟩
      | some c =>
          have ht : w.connectedTablets[i]? = some (w.connectedTablets[i]) :=
            List.getElem?_eq_getElem hi
          obtain ⟨launch, hlaunch⟩ : ∃ launch,
              (w.connectedTablets[i]).callType.policy.contains launch = true := by
            cases (w.connectedTablets[i]).callType with
            | default => exact ⟨.async, rfl⟩
            | deferred => exact ⟨.deferred, rfl⟩
            | asynchronous => exact ⟨.async, rfl⟩
          refine ⟨launch, ?_⟩
          show ∃ w', w.polled A launch _ i (some c) = some w'
          unfold polled
          dsimp only
          rw [ht]
          dsimp only
          rw [hquiet _ (List.getElem_mem hi), hlaunch]
          exact ⟨_, rfl⟩
  | started i q =>
      refine ⟨.async, ?_⟩
      show ∃ w', w.startedTrans A i q = some w'
      unfold startedTrans
      split
      · exact ⟨_, rfl⟩
      · dsimp only
        split
        · split
          · exact ⟨_, rfl⟩
          · obtain ⟨w', hw'⟩ := hkill _
            rw [hw']
            exact ⟨_, rfl⟩
        · split
          · exact ⟨_, rfl⟩
          · exact ⟨_, rfl⟩
          · split
            · exact ⟨_, rfl⟩
            · exact ⟨_, rfl⟩
  | handling q owner caller =>
      refine ⟨.async, ?_⟩
      show ∃ w', w.handle A parse q owner caller = some w'
      unfold Bluetooth.handle
      split
      · exact ⟨_, rfl⟩
      · rename_i t ht
        obtain ⟨j, _, hj⟩ := deref_eq_some.mp ht
        dsimp only
        split
        · rw [hquiet t (List.mem_of_getElem? hj)]
          exact ⟨_, rfl⟩
        · exact ⟨_, rfl⟩
        · exact ⟨_, rfl⟩
  | running i => exact ⟨.async, _, rfl⟩

/-! ## What can be borne -/

/--
The tablet in hand can be borne: its code may still come to nothing or to one that has a
case, and if it says goodbye no tablet behind it is undergoing a transaction.
-/
def Bearable (w : Bluetooth ρ) : Prop :=
  match w.pc with
  | .polling i p => ∃ t r, p.after t = some (.ret r) ∧
      ∀ c, r = some c → HasCase c ∧ (isGoodbye c = true → w.noneBusyFrom i = true)
  | .started i _ => ∀ t, w.connectedTablets[i]? = some t → t.currTrans.batmanTrans = true →
      w.noneBusyFrom i = true
  | _ => True

theorem bearable_polling {i : Nat} {p : Job (Option TransactionType)} (hpc : w.pc = .polling i p) :
    Bearable w ↔ ∃ t r, p.after t = some (.ret r) ∧
      ∀ c, r = some c → HasCase c ∧ (isGoodbye c = true → w.noneBusyFrom i = true) := by
  unfold Bearable
  rw [hpc]

theorem bearable_started {i : Nat} {q : ρ} (hpc : w.pc = .started i q) :
    Bearable w ↔ ∀ t, w.connectedTablets[i]? = some t → t.currTrans.batmanTrans = true →
      w.noneBusyFrom i = true := by
  unfold Bearable
  rw [hpc]

/-- With no tablet in hand there is nothing to bear. -/
theorem bearable_of_noHand (h : holdsTablet w.pc = false) : Bearable w := by
  unfold Bearable
  cases hpc : w.pc with
  | polling i p =>
      rw [hpc] at h
      exact Bool.noConfusion h
  | started i q =>
      rw [hpc] at h
      exact Bool.noConfusion h
  | _ => trivial

theorem eq_of_after_ret {α : Type} {a b : α} {t : List (Event winsock)}
    (h : (Prog.ret a : Job α).after t = some (.ret b)) : a = b := by
  cases t with
  | nil => exact Prog.ret.inj (Option.some.inj h)
  | cons e t =>
      obtain ⟨p', hp', -⟩ := (Prog.after_cons (I := winsock)).mp h
      exact absurd hp' (by simp [Prog.feed, Prog.resume])

theorem noneBusyFrom_congr (h : w'.connectedTablets.map (·.transactionState) =
    w.connectedTablets.map (·.transactionState)) (k : Nat) :
    w'.noneBusyFrom k = w.noneBusyFrom k := by
  have hall : ∀ w : Bluetooth ρ, w.noneBusyFrom k =
      ((w.connectedTablets.map (·.transactionState)).drop k).all fun b => !b := by
    intro w
    unfold noneBusyFrom
    rw [← List.map_drop, List.all_map]
    rfl
  rw [hall, hall, h]

/-- A job neither makes its tablet busy nor says goodbye for it. -/
theorem Bearable.job {i : Nat} {e : Event winsock} (h : Bearable w)
    (hd : Deed A parse w (.job i e) w') : Bearable w' := by
  cases hd with
  | @job _ t s prog _ ht _ _ _ _ _ =>
      have hfields : ∀ u, (worked s prog e u).transactionState = u.transactionState ∧
          (worked s prog e u).currTrans.batmanTrans = u.currTrans.batmanTrans := by
        intro u
        unfold worked
        split
        · exact ⟨rfl, rfl⟩
        · exact ⟨rfl, rfl⟩
      have hsame : ((w.modifyAt i (worked s prog e)).note (jobEffect t.serial e)).pc = w.pc := rfl
      have hnone : ∀ k, ((w.modifyAt i (worked s prog e)).note
          (jobEffect t.serial e)).noneBusyFrom k = w.noneBusyFrom k :=
        noneBusyFrom_congr (Lists.map_modify_of_eq (fun u => (hfields u).1) _ _)
      cases hpc : w.pc with
      | polling j p =>
          obtain ⟨tr, r, hr, hcode⟩ := (bearable_polling hpc).mp h
          refine (bearable_polling (hsame.trans hpc)).mpr ⟨tr, r, hr, fun c hc => ?_⟩
          exact ⟨(hcode c hc).1, fun hbye => (hnone j).trans ((hcode c hc).2 hbye)⟩
      | started j q =>
          refine (bearable_started (hsame.trans hpc)).mpr fun u hu hbat => (hnone j).trans ?_
          have hu : (w.modifyAt i (worked s prog e)).connectedTablets[j]? = some u := hu
          rw [modifyAt_get] at hu
          split at hu
          · obtain ⟨u', hu', rfl⟩ := Option.map_eq_some_iff.mp hu
            exact (bearable_started hpc).mp h u' hu' ((hfields u').2.symm.trans hbat)
          · exact (bearable_started hpc).mp h u hu hbat
      | _ => exact bearable_of_noHand (by rw [hsame, hpc]; rfl)

/-- **A step of the main thread** leaves what can be borne. -/
theorem Bearable.go {launch : Launch} {readWholeFile : Files} (h : Bearable w)
    (htable : TableInv A w) (hd : Deed A parse w (.go launch readWholeFile) w') :
    Bearable w' := by
  cases hd with
  | ask hpc ht =>
      -- the tablet may turn out to have sent nothing
      refine (bearable_polling rfl).mpr ⟨[⟨.select false, (0 : Int)⟩], none, rfl, ?_⟩
      intro c hc
      exact absurd hc (by simp)
  | @serve i c t _ _ hpc ht _ _ =>
      obtain ⟨tr, r, hr, hcode⟩ := (bearable_polling hpc).mp h
      obtain rfl := eq_of_after_ret hr
      refine (bearable_started rfl).mpr fun u hu hbat => ?_
      have hu : (w.modifyAt i (serve (w.pointer A i) launch readWholeFile
        c)).connectedTablets[i]? = some u := hu
      rw [modifyAt_get, if_pos rfl, ht] at hu
      cases hu
      have hcalm : t.currTrans.batmanTrans = false := by
        refine Bool.eq_false_iff.mpr fun hb => ?_
        obtain ⟨q, hq⟩ := htable.calm i t ht hb
        rw [hpc] at hq
        exact Pc.noConfusion rfl (heq_of_eq hq)
      have hbye : isGoodbye c = true :=
        (initReadyTransaction_batman _ _ _ _ _ _ _ hcalm).symm.trans hbat
      have hstates : (w.modifyAt i (serve (w.pointer A i) launch readWholeFile
          c)).connectedTablets.map (·.transactionState) =
          w.connectedTablets.map (·.transactionState) :=
        Lists.map_modify_of_eq (f := serve (w.pointer A i) launch readWholeFile c) (fun _ => rfl) _ _
      exact (noneBusyFrom_congr hstates i).trans ((hcode c rfl).2 hbye)
  | wait hpc _ _ _ => exact bearable_of_noHand (congrArg holdsTablet hpc)
  | _ => exact bearable_of_noHand rfl

/-! ## The way out of a call -/

section
variable {w w' : Bluetooth (Nat × Nat)}

/-- The ways on within a call that keep the server up. -/
abbrev Leads (parse : List Byte → Option Json) (w : Bluetooth (Nat × Nat))
    (l : List (Bluetooth (Nat × Nat) × Act)) (w' : Bluetooth (Nat × Nat)) : Prop :=
  Path (act slots parse) (fun w a => inPass a = true ∧ slotKnown w a = true) w l w'

theorem remaining_leads {l : List (Bluetooth (Nat × Nat) × Act)} (hl : Leads parse w l w') :
    remaining slots w' ≤ remaining slots w := by
  have hle := hl.cost_le (remaining slots) goes fun _ _ _ hok hs => goes_add_remaining hok.1 hs
  omega

theorem leads_of_jobs {l : List (Bluetooth (Nat × Nat) × Act)}
    (hl : Only slots parse isJob w l w') : Leads parse w l w' := by
  refine hl.mono fun w a ha => ?_
  cases a with
  | job i e => exact ⟨rfl, rfl⟩
  | _ => exact Bool.noConfusion ha

theorem leads_of_calls {l : List (Bluetooth (Nat × Nat) × Act)}
    (hl : Only slots parse isCall w l w') : Leads parse w l w' := by
  refine hl.mono fun w a ha => ?_
  cases a with
  | call e => exact ⟨rfl, rfl⟩
  | _ => exact Bool.noConfusion ha

/-- Where a run has got to without a crash, and with nothing in hand that cannot be borne. -/
structure Poised (parse : List Byte → Option Json) (w : Bluetooth (Nat × Nat)) : Prop where
  run : Run slots parse (fun w a => slotKnown w a = true) w
  bearable : Bearable w

theorem run_leads {l : List (Bluetooth (Nat × Nat) × Act)} (hl : Leads parse w l w')
    (h : Run slots parse (fun w a => slotKnown w a = true) w) :
    Run slots parse (fun w a => slotKnown w a = true) w' :=
  hl.invariant h fun _ _ _ hrun hok hs => hrun.step hok.2 hs

theorem Poised.jobs {l : List (Bluetooth (Nat × Nat) × Act)} (h : Poised parse w)
    (hl : Only slots parse isJob w l w') : Poised parse w' := by
  refine hl.invariant h fun w w' a h ha hs => ?_
  cases a with
  | job i e => exact ⟨h.run.step rfl hs, h.bearable.job ((inv_ne_crashed h.run).1.deed hs)⟩
  | _ => exact Bool.noConfusion ha

/-- The main thread may go on with what can be borne. -/
theorem Poised.slotKnown_go (h : Poised parse w) {launch : Launch} {readWholeFile : Files}
    (hpoll : ∀ i p, w.pc = .polling i p → ∃ r, p = .ret r) :
    slotKnown w (.go launch readWholeFile) = true := by
  unfold slotKnown slotSafe
  cases hpc : w.pc with
  | polling i p =>
      obtain ⟨r, rfl⟩ := hpoll i p hpc
      obtain ⟨tr, r', hr, hcode⟩ := (bearable_polling hpc).mp h.bearable
      obtain rfl := eq_of_after_ret hr
      cases r with
      | none => rfl
      | some c => exact decide_eq_true (hcode c rfl).1
  | started i q =>
      dsimp only
      rw [Bool.and_true]
      cases hderef : w.deref slots q with
      | none => rfl
      | some t =>
          obtain ⟨j, hj, ht⟩ := deref_eq_some.mp hderef
          obtain ⟨_, _, hi, _⟩ := (supple_of_run h.run).table.started i q hpc
          obtain rfl := Option.some.inj (hj.symm.trans hi)
          have hbear := (bearable_started hpc).mp h.bearable t ht
          show (!t.currTrans.batmanTrans || w.noneBusyFrom j) = true
          cases hbat : t.currTrans.batmanTrans with
          | false => rfl
          | true => exact hbear hbat
  | _ => rfl

/-- The calls for the tablet in hand can be brought to their end. -/
theorem Poised.exists_leads_polled (h : Poised parse w) (hidle : w.pc ≠ .idle) :
    ∃ l w', Leads parse w l w' ∧ Poised parse w' ∧ w'.pc ≠ .idle ∧
      ∀ i p, w'.pc = .polling i p → ∃ r, p = .ret r := by
  by_cases hpoll : ∃ i p, w.pc = .polling i p
  · obtain ⟨i, p, hpc⟩ := hpoll
    obtain ⟨t, r, ht, hcode⟩ := (bearable_polling hpc).mp h.bearable
    obtain ⟨hi, -⟩ := (supple_of_run h.run).polls i p hpc
    obtain ⟨l, w', hl, hpc', htab⟩ := exists_leads_poll hi hpc ht
    have hlead : Leads parse w l w' := leads_of_calls hl
    refine ⟨l, w', hlead, ⟨run_leads hlead h.run, ?_⟩, by simp [hpc'], ?_⟩
    · refine (bearable_polling hpc').mpr ⟨[], r, rfl, fun c hc => ⟨(hcode c hc).1, ?_⟩⟩
      intro hbye
      exact (noneBusyFrom_congr (congrArg _ htab) i).trans ((hcode c hc).2 hbye)
    · intro j q hq
      rw [hpc'] at hq
      cases hq
      exact ⟨r, rfl⟩
  · exact ⟨[], w, .nil, h, hidle, fun i p hpc => absurd ⟨i, p, hpc⟩ hpoll⟩

/-- From wherever it is the main thread can get to a place with less to do. -/
theorem Poised.exists_leads_less (h : Poised parse w) (hidle : w.pc ≠ .idle) :
    ∃ l w', Leads parse w l w' ∧ Poised parse w' ∧ remaining slots w' < remaining slots w := by
  -- first the calls of the main thread, then the jobs
  obtain ⟨l₁, w₁, hl₁, h₁, hidle₁, hpoll₁⟩ := h.exists_leads_polled hidle
  have hcrash₁ := (inv_ne_crashed h₁.run).2
  obtain ⟨l₂, w₂, hl₂, hpc₂, hquiet⟩ : ∃ l₂ w₂, Only slots parse isJob w₁ l₂ w₂ ∧
      w₂.pc = w₁.pc ∧ ∀ t ∈ w₂.connectedTablets, t.jobRunning = false :=
    (supple_of_run h₁.run).exists_leads_quiet hcrash₁
  have h₂ := h₁.jobs hl₂
  have hpoll₂ : ∀ i p, w₂.pc = .polling i p → ∃ r, p = .ret r := by
    intro i p hpc
    exact hpoll₁ i p (hpc₂ ▸ hpc)
  have hsize : ∀ i p, w₂.pc = .polling i p → i < w₂.size ∧ ∃ r, p = .ret r := by
    intro i p hpc
    exact ⟨((supple_of_run h₂.run).polls i p hpc).1, hpoll₂ i p hpc⟩
  -- and then it goes on
  obtain ⟨launch, w₃, hw₃⟩ : ∃ launch w₃,
      w₂.go slots parse launch (fun _ => []) = some w₃ :=
    exists_go hquiet (hpc₂ ▸ hidle₁) (hpc₂ ▸ hcrash₁) hsize
  have hact : w₂.act slots parse (.go launch fun _ => []) = some w₃ := hw₃
  have hknown : slotKnown w₂ (.go launch fun _ => []) = true := h₂.slotKnown_go hpoll₂
  have hdeed := (inv_ne_crashed h₂.run).1.deed hact
  have hl₁₂ := hl₁.append (leads_of_jobs hl₂)
  refine ⟨_, w₃, hl₁₂.append (Path.single ⟨rfl, hknown⟩ hact),
    ⟨h₂.run.step hknown hact, h₂.bearable.go (supple_of_run h₂.run).table hdeed⟩, ?_⟩
  have hle := remaining_leads hl₁₂
  have hless := remaining_go hw₃
  omega

/--
**The server is never stuck**: in every run in which slots keep their tablets and each code
that is served has a case, from every state in which the tablet in hand can be borne, the
call of `updateAllBt` under way can return without a crash. No sequence of events leaves the
main thread or a job waiting for something that only the other could do.
-/
theorem exists_return (parse : List Byte → Option Json) (w : Bluetooth (Nat × Nat))
    (h : Run slots parse (fun w a => slotKnown w a = true) w) (hb : Bearable w) :
    ∃ l w', Path (act slots parse) (fun w a => inPass a = true ∧ slotKnown w a = true) w l w' ∧
      w'.pc = .idle := by
  have hfall : ∀ w, Poised parse w → ¬ w.pc = .idle →
      ∃ l w', Leads parse w l w' ∧ Poised parse w' ∧ remaining slots w' < remaining slots w :=
    fun w hw hgoal => hw.exists_leads_less hgoal
  obtain ⟨l, w', hl, _, hgoal⟩ := exists_path_of_variant (remaining slots) hfall ⟨h, hb⟩
  exact ⟨l, w', hl, hgoal⟩

end

/-- A transfer is under way, and the main thread is in the midst of serving a tablet behind it. -/
theorem exists_return_amid : ∃ w : Bluetooth (Nat × Nat), w.serials = [0, 1] ∧
    w.runningTransactions.length = 1 ∧ w.pc ≠ .idle ∧
    ∃ l w', Path (act slots fun _ => none)
      (fun w a => inPass a = true ∧ slotKnown w a = true) w l w' ∧ w'.pc = .idle := by
  have h : ((replay (act slots fun _ => none) slotKnown
      (twoJoin ++ .updateAllBt none 0 :: sendsCode 2 ++ [onward, onward]) init).map fun w =>
        (w.serials, w.runningTransactions.length, decide (w.pc matches .ready 1))) =
      some ([0, 1], 1, true) := by decide +kernel
  obtain ⟨w, hw, h⟩ := Option.map_eq_some_iff.mp h
  obtain ⟨hserials, h⟩ := Prod.mk.inj h
  obtain ⟨hqueue, hready⟩ := Prod.mk.inj h
  have hpc : w.pc = .ready 1 := by
    have hready := of_decide_eq_true hready
    cases hpc : w.pc with
    | ready i =>
        rw [hpc] at hready
        split at hready
        · rename_i heq
          exact heq
        · exact absurd hready (by simp)
    | _ =>
        rw [hpc] at hready
        exact absurd hready (by simp)
  have hbear : Bearable w := bearable_of_noHand (by rw [hpc]; rfl)
  exact ⟨w, hserials, hqueue, by simp [hpc], exists_return (fun _ => none) w
    (run_of_replay (fun _ _ h => h) .init hw) hbear⟩

end Bluetooth

end ScoutComputer
