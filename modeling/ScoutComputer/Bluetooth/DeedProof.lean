import ScoutComputer.Bluetooth.ServerRun

/-!
# The server without its pointers

While every pointer in use resolves to its own tablet, a step does one of a few things,
and none of them mentions a pointer: `Deed` lists them, with all they change and all they
leave in the log. What the server does to its tablets is read off this list.
-/

namespace ScoutComputer.Bluetooth

open Interact

variable {ρ : Type} {A : Addressing ρ} {w w' : Bluetooth ρ}

/-- What a call of the job of tablet `n` leaves in the log. -/
def jobEffect (n : Nat) (e : Event winsock) : Effect :=
  match e.1 with
  | .setSuccess _ => .flagged (some n) n
  | _ => .moved (some n) n (taken e.1 e.2) (given e.1 e.2)

/-- What a call of its job leaves in the tablet. -/
def worked (s : SharedState ρ) (prog : Job (Option (List Byte) × Bool)) (e : Event winsock)
    (t : BtTabObj ρ) : BtTabObj ρ :=
  match e.1 with
  | .setSuccess b => setFlag b (advance s prog t)
  | _ => advance s prog t

/-- What asking the future of a tablet leaves in the log. -/
def consultation (t : BtTabObj ρ) : Effect :=
  .consulted t.serial t.currTrans.transactionType
    (t.currTrans.data.map (·.forCode) == some t.codesRead)

/-- What `get()` leaves in the log before it returns or waits. -/
def asked (t : BtTabObj ρ) : List Effect :=
  if t.currTrans.needsGet then [consultation t] else []

/-- What the result of a tablet leaves in the log. -/
def concluded (t : BtTabObj ρ) (r : Handled ρ) : List Effect :=
  .submitted t.serial r.statements ::
    (r.name.map fun name => Effect.named (some t.serial) t.serial name).toList

/-- **What a step does** while every pointer in use resolves to its own tablet. -/
inductive Deed (A : Addressing ρ) (parse : List Byte → Option Json) (w : Bluetooth ρ) :
    Act → Bluetooth ρ → Prop where
  | nobody {grow : Nat} : w.pc = .idle →
      Deed A parse w (.updateAllBt none grow) (w.goto (.ready 0))
  | accept {socket : Socket} {mac : List Byte} {grow : Nat} {w' : Bluetooth ρ} :
      w.pc = .idle → w.acceptConn (some (socket, mac)) grow = some w' →
      Deed A parse w (.updateAllBt (some (socket, mac)) grow) (w'.goto (.ready 0))
  | kill {deleteSock : Socket} {w' : Bluetooth ρ} : w.pc = .idle →
      w.killSocket deleteSock = some w' → Deed A parse w (.killSocket deleteSock) w'
  | killAll {w' : Bluetooth ρ} : w.pc = .idle → w.killAllSockets = some w' →
      Deed A parse w .killAllSockets w'
  | job {i : Nat} {t : BtTabObj ρ} {s : SharedState ρ} {prog : Job (Option (List Byte) × Bool)}
      {e : Event winsock} : w.connectedTablets[i]? = some t → t.currTrans.data = some s →
      s.started = true → s.prog.feed e = some prog → active w.pc i t → s.forCode = t.codesRead →
      Deed A parse w (.job i e) ((w.modifyAt i (worked s prog e)).note (jobEffect t.serial e))
  | ask {i : Nat} {t : BtTabObj ρ} {launch : Launch} {readWholeFile : Files} :
      w.pc = .ready i → w.connectedTablets[i]? = some t →
      Deed A parse w (.go launch readWholeFile)
        (w.goto (.polling i (serveTablet t.transactionState)))
  | readyDone {i : Nat} {launch : Launch} {readWholeFile : Files} :
      w.pc = .ready i → w.connectedTablets[i]? = none →
      Deed A parse w (.go launch readWholeFile) (w.goto (.running 0))
  | call {i : Nat} {p p' : Job (Option TransactionType)} {t : BtTabObj ρ} {e : Event winsock} :
      w.pc = .polling i p → p.feed e = some p' → w.connectedTablets[i]? = some t →
      Deed A parse w (.call e) (if e.1 = .closesocket then
        (w.goto (.polling i p')).note (.closed t.serial) else w.goto (.polling i p'))
  | pass {i : Nat} {launch : Launch} {readWholeFile : Files} :
      w.pc = .polling i (.ret none) →
      Deed A parse w (.go launch readWholeFile) (w.goto (.ready (i + 1)))
  | serve {i : Nat} {c : TransactionType} {t : BtTabObj ρ} {launch : Launch}
      {readWholeFile : Files} : w.pc = .polling i (.ret (some c)) →
      w.connectedTablets[i]? = some t → t.jobRunning = false → t.transactionState = false →
      Deed A parse w (.go launch readWholeFile)
        ((w.modifyAt i (serve (w.pointer A i) launch readWholeFile c)).goto
          (.started i (w.pointer A i)))
  | goodbye {i : Nat} {q : ρ} {t : BtTabObj ρ} {launch : Launch} {readWholeFile : Files} :
      w.pc = .started i q → w.connectedTablets[i]? = some t → t.currTrans.batmanTrans = true →
      Deed A parse w (.go launch readWholeFile)
        (({ w with connectedTablets := w.connectedTablets.eraseIdx i }.note
          (.closed t.serial)).goto (.ready (i + 1)))
  /-- A future without shared state is consulted for a code that was just served. -/
  | noFuture {i : Nat} {q : ρ} {t : BtTabObj ρ} {launch : Launch} {readWholeFile : Files} :
      w.pc = .started i q → w.connectedTablets[i]? = some t → t.currTrans.batmanTrans = false →
      t.currTrans.data = none →
      Deed A parse w (.go launch readWholeFile) ((w.consult t).goto .crashed)
  | ready {i : Nat} {q : ρ} {t : BtTabObj ρ} {launch : Launch} {readWholeFile : Files} :
      w.pc = .started i q → w.connectedTablets[i]? = some t → t.currTrans.batmanTrans = false →
      t.currTrans.isReady = some true →
      Deed A parse w (.go launch readWholeFile)
        ((w.consult t).goto (.handling q t.serial (.ready i)))
  | queue {i : Nat} {q : ρ} {t : BtTabObj ρ} {launch : Launch} {readWholeFile : Files} :
      w.pc = .started i q → w.connectedTablets[i]? = some t → t.currTrans.batmanTrans = false →
      t.currTrans.isReady = some false →
      Deed A parse w (.go launch readWholeFile)
        ((((w.consult t).push ⟨q, t.serial⟩).modifyAt i
          (setTransactionState true)).goto (.ready (i + 1)))
  /-- `get()` waits for a job, which starts if it was deferred. -/
  | wait {j : Nat} {q : ρ} {t : BtTabObj ρ} {caller : Caller} {launch : Launch}
      {readWholeFile : Files} : w.pc = .handling q t.serial caller →
      w.connectedTablets[j]? = some t →
      handleTransResult parse t.currTrans = .error .waiting → t.jobRunning = false →
      Deed A parse w (.go launch readWholeFile)
        ({ w with log := w.log ++ asked t }.modifyAt j start)
  | fault {j : Nat} {q : ρ} {t : BtTabObj ρ} {caller : Caller} {f : Fault} {launch : Launch}
      {readWholeFile : Files} : w.pc = .handling q t.serial caller →
      w.connectedTablets[j]? = some t → handleTransResult parse t.currTrans = .error f →
      f ≠ .waiting →
      Deed A parse w (.go launch readWholeFile)
        ({ w with log := w.log ++ asked t }.goto .crashed)
  | concludeReady {j : Nat} {q : ρ} {t : BtTabObj ρ} {r : Handled ρ} {launch : Launch}
      {readWholeFile : Files} : w.pc = .handling q t.serial (.ready j) →
      w.connectedTablets[j]? = some t → t.transactionState = false →
      handleTransResult parse t.currTrans = .ok r →
      Deed A parse w (.go launch readWholeFile)
        { w.modifyAt j (settle r) with
          log := w.log ++ (asked t ++ concluded t r), pc := .ready (j + 1) }
  | concludeRunning {i j : Nat} {q : ρ} {t : BtTabObj ρ} {r : Handled ρ} {launch : Launch}
      {readWholeFile : Files} : w.pc = .handling q t.serial (.running i) →
      w.connectedTablets[j]? = some t → w.runningTransactions[i]? = some ⟨q, t.serial⟩ →
      handleTransResult parse t.currTrans = .ok r →
      Deed A parse w (.go launch readWholeFile)
        { w.modifyAt j (setTransactionState false ∘ settle r) with
          runningTransactions := w.runningTransactions.eraseIdx i
          log := w.log ++ (asked t ++ concluded t r ++ [.released (some t.serial) t.serial])
          pc := .running (i + 1) }
  | queueDone {i : Nat} {launch : Launch} {readWholeFile : Files} : w.pc = .running i →
      w.runningTransactions[i]? = none →
      Deed A parse w (.go launch readWholeFile) (w.goto .idle)
  /-- A future without shared state is consulted for an entry of the queue. -/
  | lost {i j : Nat} {e : QueueEntry ρ} {t : BtTabObj ρ} {launch : Launch}
      {readWholeFile : Files} : w.pc = .running i → w.runningTransactions[i]? = some e →
      w.connectedTablets[j]? = some t → t.serial = e.owner → t.currTrans.data = none →
      Deed A parse w (.go launch readWholeFile) ((w.consult t).goto .crashed)
  | due {i j : Nat} {e : QueueEntry ρ} {t : BtTabObj ρ} {launch : Launch}
      {readWholeFile : Files} : w.pc = .running i → w.runningTransactions[i]? = some e →
      w.connectedTablets[j]? = some t → t.serial = e.owner → t.currTrans.isReady = some true →
      Deed A parse w (.go launch readWholeFile)
        ((w.consult t).goto (.handling e.trans e.owner (.running i)))
  | notYet {i j : Nat} {e : QueueEntry ρ} {t : BtTabObj ρ} {launch : Launch}
      {readWholeFile : Files} : w.pc = .running i → w.runningTransactions[i]? = some e →
      w.connectedTablets[j]? = some t → t.serial = e.owner → t.currTrans.isReady = some false →
      Deed A parse w (.go launch readWholeFile) ((w.consult t).goto (.running (i + 1)))

/-! ## Every step is one of these -/

theorem keepsPlace_worked (s : SharedState ρ) (prog : Job (Option (List Byte) × Bool))
    (e : Event winsock) : KeepsPlace (worked s prog e) := by
  intro t
  unfold worked
  split
  · exact ⟨rfl, rfl⟩
  · exact ⟨rfl, rfl⟩

theorem Inv.deed_job (h : Inv A w) {parse : List Byte → Option Json} {i : Nat}
    {e : Event winsock} (hw : w.jobReturned A i e = some w') : Deed A parse w (.job i e) w' := by
  obtain ⟨t, s, prog, ht, hs, hst, hp, hw'⟩ := jobReturned_eq_some hw
  have hrun : t.jobRunning = true := by
    unfold BtTabObj.jobRunning
    rw [hs]
    simp [hst, result?_of_feed hp]
  obtain ⟨hact, hcode, howner, hthis, hsuccess⟩ := h.running_job ht hs hrun
  have hdeed : w' = (w.modifyAt i (worked s prog e)).note (jobEffect t.serial e) := by
    obtain ⟨c, r⟩ := e
    unfold jobReturned at hw
    rw [ht, Option.bind_eq_bind, Option.bind_some, hs, Option.bind_eq_bind, Option.bind_some,
      if_pos hst, hp, Option.bind_eq_bind, Option.bind_some] at hw
    cases c with
    | setSuccess b =>
        rw [← Option.some.inj hw]
        dsimp only
        rw [modify_modifyAt h.serials hsuccess ht rfl (keepsPlace_advance s prog), hsuccess, howner]
        rfl
    | _ =>
        rw [← Option.some.inj hw]
        dsimp only
        rw [hthis, howner]
        rfl
  rw [hdeed]
  exact .job ht hs hst hp hact hcode

theorem Inv.deed_started (h : Inv A w) {parse : List Byte → Option Json} {i : Nat} {q : ρ}
    {launch : Launch} {readWholeFile : Files} (hpc : w.pc = .started i q)
    (hw : w.startedTrans A i q = some w') : Deed A parse w (.go launch readWholeFile) w' := by
  have hpcok := h.pc
  rw [hpc] at hpcok
  obtain ⟨t, ht, hfree, hq⟩ := hpcok
  obtain ⟨parent, hparent, hres⟩ := (h.tablet i t ht).parent (Or.inr (by rw [hpc]; rfl))
  have hderef := (deref_of_resolve h.serials hq ht rfl).2
  cases hbatman : t.currTrans.batmanTrans with
  | true =>
      obtain ⟨_, _, _, _, rfl⟩ := h.startedTrans_goodbye hpc hderef hbatman hw
      exact .goodbye hpc ht hbatman
  | false =>
      have hindex := (deref_of_resolve h.serials hres ht rfl).1
      unfold Bluetooth.startedTrans at hw
      rw [hderef] at hw
      dsimp only at hw
      rw [if_neg (by rw [hbatman]; exact Bool.false_ne_true)] at hw
      cases hready : t.currTrans.isReady with
      | none =>
          rw [hready] at hw
          cases hw
          exact .noFuture hpc ht hbatman (Option.map_eq_none_iff.mp hready)
      | some b =>
          rw [hready] at hw
          cases b with
          | true =>
              cases hw
              exact .ready hpc ht hbatman hready
          | false =>
              dsimp only at hw
              rw [hparent] at hw
              dsimp only at hw
              rw [modify_of_index (w := (w.consult t).push _) hindex] at hw
              cases hw
              exact .queue hpc ht hbatman hready

theorem log_name (w : Bluetooth ρ) (parent : ρ) (owner : Nat) (name : Option (List Byte)) :
    (w.name A parent owner name).log = w.log ++
      (name.map fun name => Effect.named (w.resolve A parent) owner name).toList := by
  cases name with
  | none => exact (List.append_nil _).symm
  | some name =>
      show (w.modify A parent _).log ++ _ = _
      rw [(modify_queue _ _ _).2]
      rfl

/-- What a result leaves in the log. -/
theorem handled_log {j : Nat} {t : BtTabObj ρ} {q p : ρ} {r : Handled ρ} (hn : w.serials.Nodup)
    (ht : w.connectedTablets[j]? = some t) (hq : w.resolve A q = some t.serial)
    (hparent : r.trans.parent = some p) (hp : w.resolve A p = some t.serial) (caller : Caller) :
    (w.handled A q t.serial caller r).log = w.log ++ concluded t r ++
      match caller with
      | .ready _ => []
      | .running _ => [.released (some t.serial) t.serial] := by
  have hstore : KeepsPlace (store (ρ := ρ) r.trans) := fun _ => ⟨rfl, rfl⟩
  have hres : ((w.modifyAt j (store r.trans)).note
      (.submitted t.serial r.statements)).resolve A p = some t.serial :=
    (congrFun (sameTable_modifyAt hstore w j).resolve p).trans hp
  have hnamed : (((w.modifyAt j (store r.trans)).note (.submitted t.serial r.statements)).name A p
      t.serial r.name).log = w.log ++ concluded t r := by
    rw [log_name, hres]
    exact List.append_assoc _ _ _
  have hvia : (((w.modifyAt j (store r.trans)).note (.submitted t.serial r.statements)).name A p
      t.serial r.name).resolve A p = some t.serial := by
    cases hname : r.name with
    | none => exact hres
    | some name =>
        have hset : KeepsPlace (ρ := ρ) (setScoutingName name) := fun _ => ⟨rfl, rfl⟩
        show (((w.modifyAt j (store r.trans)).note _).modify A p _).resolve A p = _
        unfold Bluetooth.modify
        cases ((w.modifyAt j (store r.trans)).note (.submitted t.serial r.statements)).index A p with
        | none => exact hres
        | some i => exact (congrFun (sameTable_modifyAt hset _ i).resolve p).trans hres
  unfold handled
  rw [modify_of_resolve hn hq ht rfl, hparent]
  dsimp only
  cases caller with
  | ready i => exact hnamed.trans (List.append_nil _).symm
  | running i =>
      show ((_ : Bluetooth ρ).modify A p _).log ++ _ = _
      rw [(modify_queue _ _ _).2, hvia]
      exact congrArg (· ++ _) hnamed

theorem Inv.deed_handle (h : Inv A w) {parse : List Byte → Option Json} {q : ρ} {owner : Nat}
    {caller : Caller} {launch : Launch} {readWholeFile : Files}
    (hpc : w.pc = .handling q owner caller)
    (hw : w.handle A parse q owner caller = some w') :
    Deed A parse w (.go launch readWholeFile) w' := by
  have hpcok := h.pc
  rw [hpc] at hpcok
  obtain ⟨j, ⟨t, ht, rfl, hq, hstop⟩, hcaller⟩ := hpcok
  have hderef := (deref_of_resolve h.serials hq ht rfl).2
  have hact := h.active_of_handling hpc ht rfl
  obtain ⟨p, hparent, hp⟩ := (h.tablet j t ht).parent hact
  have hasked : (if t.currTrans.needsGet then w.consult t else w) =
      { w with log := w.log ++ asked t } := by
    unfold asked
    split
    · rfl
    · rw [List.append_nil]
  unfold Bluetooth.handle at hw
  rw [hderef] at hw
  dsimp only at hw
  rw [hasked] at hw
  split at hw
  · rename_i hwait
    split at hw
    · exact absurd hw (by simp)
    · rename_i hnot
      rw [modify_of_resolve (w := { w with log := w.log ++ asked t }) h.serials hq ht rfl] at hw
      cases hw
      exact .wait hpc ht hwait (Bool.eq_false_iff.mpr hnot)
  · rename_i f hfault hne
    cases hw
    exact .fault hpc ht hne fun hf => hfault (hf ▸ rfl)
  · rename_i r hr
    have hparent' : r.trans.parent = some p := by
      rcases handleTransResult_ok hr with ⟨_, htrans⟩ | ⟨_, htrans⟩
      · rw [htrans]
        exact hparent
      · rw [htrans]
        exact hparent
    obtain ⟨log, _, heq⟩ := handled_eq (w := { w with log := w.log ++ asked t }) h.serials ht hq
      hparent' hp caller
    have hlog := handled_log (w := { w with log := w.log ++ asked t }) h.serials ht hq hparent' hp
      caller
    rw [heq] at hlog hw
    cases hw
    cases caller with
    | ready i =>
        obtain ⟨rfl, hno⟩ := hcaller
        have hfree : t.transactionState = false := by
          rw [busy_serial h.serials ht] at hno
          exact Bool.eq_false_iff.mpr hno
        have hlog : log = w.log ++ (asked t ++ concluded t r) := by
          rw [← List.append_assoc]
          exact hlog.trans (List.append_nil _)
        subst hlog
        exact .concludeReady hpc ht hfree hr
    | running i =>
        have hlog : log = w.log ++ (asked t ++ concluded t r ++
            [.released (some t.serial) t.serial]) := by
          rw [← List.append_assoc, ← List.append_assoc]
          exact hlog
        subst hlog
        exact .concludeRunning hpc ht hcaller hr

theorem Inv.deed_running (h : Inv A w) {parse : List Byte → Option Json} {i : Nat}
    {launch : Launch} {readWholeFile : Files} (hpc : w.pc = .running i) :
    Deed A parse w (.go launch readWholeFile) (w.checkRunning A i) := by
  unfold Bluetooth.checkRunning
  cases he : w.runningTransactions[i]? with
  | none => exact .queueDone hpc he
  | some e =>
      have hres := h.entry e (List.mem_of_getElem? he)
      obtain ⟨j, t, _, ht, hts⟩ := exists_of_resolve hres
      dsimp only
      rw [(deref_of_resolve h.serials hres ht hts).2]
      dsimp only
      cases hready : t.currTrans.isReady with
      | none => exact .lost hpc he ht hts (Option.map_eq_none_iff.mp hready)
      | some b =>
          cases b with
          | true => exact .due hpc he ht hts hready
          | false => exact .notYet hpc he ht hts hready

/-- **Every step is one of these**, as long as the invariant holds. -/
theorem Inv.deed (h : Inv A w) {parse : List Byte → Option Json} {a : Act}
    (hw : w.act A parse a = some w') : Deed A parse w a w' := by
  unfold Bluetooth.act at hw
  cases a with
  | updateAllBt peer grow =>
      dsimp only at hw
      split at hw
      · rename_i hpc
        obtain ⟨w₁, hw₁, rfl⟩ := Option.map_eq_some_iff.mp hw
        cases peer with
        | none =>
            cases hw₁
            exact .nobody hpc
        | some peer => exact .accept hpc hw₁
      · exact absurd hw (by simp)
  | call e =>
      dsimp only at hw
      unfold Bluetooth.callReturned at hw
      split at hw
      · rename_i i p hpc
        split at hw
        · rename_i p' t hp ht
          rw [← Option.some.inj hw]
          exact .call hpc hp ht
        · exact absurd hw (by simp)
      · exact absurd hw (by simp)
  | job i e =>
      dsimp only at hw
      split at hw
      · exact absurd hw (by simp)
      · exact h.deed_job hw
  | killSocket deleteSock =>
      dsimp only at hw
      split at hw
      · rename_i hpc
        exact .kill hpc hw
      · exact absurd hw (by simp)
  | killAllSockets =>
      dsimp only at hw
      split at hw
      · rename_i hpc
        exact .killAll hpc hw
      · exact absurd hw (by simp)
  | go launch readWholeFile =>
      dsimp only at hw
      unfold Bluetooth.go at hw
      split at hw
      · rename_i i hpc
        split at hw
        · rename_i hnone
          cases hw
          exact .readyDone hpc hnone
        · rename_i t ht
          cases hw
          exact .ask hpc ht
      · rename_i i p hpc
        obtain ⟨r, hr, hw⟩ := Option.bind_eq_some_iff.mp hw
        have hp : p = .ret r := Prog.result?_eq_some.mp hr
        subst hp
        cases r with
        | none =>
            cases hw
            exact .pass hpc
        | some c =>
            obtain ⟨t, ht, hstop, rfl⟩ := polled_some hw
            refine .serve hpc ht hstop ?_
            have hpcok := h.pc
            rw [hpc] at hpcok
            obtain ⟨u, hu, hspec⟩ := hpcok
            rw [ht] at hu
            cases hu
            cases hb : t.transactionState with
            | false => rfl
            | true => exact absurd (hspec.post_of hb) (by simp)
      · rename_i i q hpc
        exact h.deed_started hpc hw
      · rename_i q owner caller hpc
        exact h.deed_handle hpc hw
      · rename_i i hpc
        cases hw
        exact h.deed_running hpc
      · exact absurd hw (by simp)
      · exact absurd hw (by simp)

end ScoutComputer.Bluetooth
