import ScoutComputer.Bluetooth.ServerRun

/-!
# What a step does to the table

Pointers into `connectedTablets` may go astray, and a job or a result may then write to a
tablet it has nothing to do with. What it cannot write is what a tablet is known by: its
place in the order of arrival, its handle and its address; nor can it say goodbye for
another. `TableStep` lists what any step does to the table, for either addressing.
-/

namespace ScoutComputer

open Interact

/-- What a tablet is known by. -/
structure Identity where
  serial : Nat
  socket : Socket
  macStr : List Byte
  deriving DecidableEq

/-- The codes after which a tablet is hung up on. -/
def isGoodbye (c : TransactionType) : Bool := c = transSocketError || c = transCloseSocket

section
variable {ρ : Type}

def BtTabObj.identity (t : BtTabObj ρ) : Identity := ⟨t.serial, t.socket, t.macStr⟩

/-- What no step but serving the tablet itself changes. -/
def BtTabObj.mark (t : BtTabObj ρ) : Identity × Option ρ × Bool :=
  (t.identity, t.currTrans.parent, t.currTrans.batmanTrans)

/-- A tablet that is asked for a code is to be removed exactly after a goodbye. -/
theorem initReadyTransaction_batman (self this : ρ) (launch : Launch) (readWholeFile : Files)
    (owner forCode : Nat) (c : TransactionType) {trans : TabTransaction ρ}
    (h : trans.batmanTrans = false) :
    (initReadyTransaction self launch readWholeFile owner forCode
      (trans.read this c)).batmanTrans = isGoodbye c := by
  have htype : (trans.read this c).transactionType = c := rfl
  unfold initReadyTransaction
  rw [htype]
  by_cases hc : c = transSocketError ∨ c = transCloseSocket
  · rw [if_pos hc]
    rcases hc with rfl | rfl
    · rfl
    · rfl
  · rw [if_neg hc]
    obtain ⟨h1, h2⟩ := not_or.mp hc
    have hno : isGoodbye c = false := by simp [isGoodbye, h1, h2]
    rw [hno]
    split
    · unfold handleWriteTransactions
      split
      · exact h
      · rfl
    · rfl

end

namespace Bluetooth

variable {ρ : Type} {A : Addressing ρ} {w w' : Bluetooth ρ}

/-- The tablets in the table, as they are known. -/
def identities (w : Bluetooth ρ) : List Identity := w.connectedTablets.map (·.identity)

def marks (w : Bluetooth ρ) : List (Identity × Option ρ × Bool) :=
  w.connectedTablets.map (·.mark)

/-- Which tablets are undergoing a transaction. -/
def states (w : Bluetooth ρ) : List (Nat × Bool) :=
  w.connectedTablets.map fun t => (t.serial, t.transactionState)

/-- How often the socket of a tablet has been closed. -/
def closes (w : Bluetooth ρ) (n : Nat) : Nat := w.log.count (.closed n)

/-! ## Steps that leave the table alone -/

/-- The same tablets, and none of their sockets was closed. -/
structure Quiet (w w' : Bluetooth ρ) : Prop where
  buf : w'.buf = w.buf
  accepted : w'.accepted = w.accepted
  marks : w'.marks = w.marks
  closes : ∀ n, w'.closes n = w.closes n

theorem Quiet.refl (w : Bluetooth ρ) : Quiet w w := ⟨rfl, rfl, rfl, fun _ => rfl⟩

theorem Quiet.trans {w₁ w₂ w₃ : Bluetooth ρ} (h : Quiet w₁ w₂) (h' : Quiet w₂ w₃) : Quiet w₁ w₃ :=
  ⟨h'.buf.trans h.buf, h'.accepted.trans h.accepted, h'.marks.trans h.marks,
    fun n => (h'.closes n).trans (h.closes n)⟩

theorem Quiet.identities (h : Quiet w w') : w'.identities = w.identities := by
  have hm : ∀ w : Bluetooth ρ, w.identities = w.marks.map Prod.fst := by
    intro w
    rw [Bluetooth.marks, List.map_map]
    rfl
  rw [hm, hm, h.marks]

theorem sockets_eq (w : Bluetooth ρ) : w.sockets = w.identities.map (·.socket) := by
  rw [identities, List.map_map]
  rfl

theorem serials_eq (w : Bluetooth ρ) : w.serials = w.identities.map (·.serial) := by
  rw [identities, List.map_map]
  rfl

theorem Quiet.sockets (h : Quiet w w') : w'.sockets = w.sockets := by
  rw [sockets_eq, sockets_eq, h.identities]

theorem Quiet.serials (h : Quiet w w') : w'.serials = w.serials := by
  rw [serials_eq, serials_eq, h.identities]

theorem Quiet.index (h : Quiet w w') : w'.index A = w.index A := by
  funext p
  unfold Bluetooth.index
  rw [h.buf, h.sockets]

/-- The tablet at an index still carries the same mark. -/
theorem Quiet.get (h : Quiet w w') {i : Nat} {t' : BtTabObj ρ}
    (ht' : w'.connectedTablets[i]? = some t') :
    ∃ t, w.connectedTablets[i]? = some t ∧ t'.mark = t.mark := by
  have hget : w.marks[i]? = some t'.mark := by
    rw [← h.marks, Bluetooth.marks, List.getElem?_map, ht']
    rfl
  rw [Bluetooth.marks, List.getElem?_map] at hget
  obtain ⟨t, ht, hm⟩ := Option.map_eq_some_iff.mp hget
  exact ⟨t, ht, hm.symm⟩

theorem Quiet.get' (h : Quiet w w') {i : Nat} {t : BtTabObj ρ}
    (ht : w.connectedTablets[i]? = some t) :
    ∃ t', w'.connectedTablets[i]? = some t' ∧ t'.mark = t.mark := by
  have hget : w'.marks[i]? = some t.mark := by
    rw [h.marks, Bluetooth.marks, List.getElem?_map, ht]
    rfl
  rw [Bluetooth.marks, List.getElem?_map] at hget
  exact Option.map_eq_some_iff.mp hget

/-- As `Quiet`, and the same tablets are undergoing a transaction. -/
structure Still (w w' : Bluetooth ρ) : Prop extends Quiet w w' where
  states : w'.states = w.states

theorem Still.refl (w : Bluetooth ρ) : Still w w := ⟨.refl w, rfl⟩

theorem Still.trans {w₁ w₂ w₃ : Bluetooth ρ} (h : Still w₁ w₂) (h' : Still w₂ w₃) : Still w₁ w₃ :=
  ⟨h.toQuiet.trans h'.toQuiet, h'.states.trans h.states⟩

theorem still_goto (w : Bluetooth ρ) (pc : Pc ρ) : Still w (w.goto pc) :=
  ⟨⟨rfl, rfl, rfl, fun _ => rfl⟩, rfl⟩

theorem still_note (w : Bluetooth ρ) {e : Effect} (he : ∀ n, e ≠ .closed n) : Still w (w.note e) := by
  refine ⟨⟨rfl, rfl, rfl, fun n => ?_⟩, rfl⟩
  unfold closes note
  have hzero : List.count (.closed n) [e] = 0 :=
    List.count_eq_zero.mpr fun hm => he n (List.mem_singleton.mp hm).symm
  rw [List.count_append, hzero, Nat.add_zero]

theorem still_consult (w : Bluetooth ρ) (t : BtTabObj ρ) : Still w (w.consult t) :=
  still_note w fun _ => Effect.noConfusion

theorem still_erase (w : Bluetooth ρ) (i : Nat) : Still w (w.erase i) :=
  ⟨⟨rfl, rfl, rfl, fun _ => rfl⟩, rfl⟩

theorem quiet_push (w : Bluetooth ρ) (e : QueueEntry ρ) : Quiet w (w.push e) :=
  ⟨rfl, rfl, rfl, fun _ => rfl⟩

theorem quiet_modifyAt {i : Nat} {t : BtTabObj ρ} {f : BtTabObj ρ → BtTabObj ρ}
    (ht : w.connectedTablets[i]? = some t) (hf : (f t).mark = t.mark) :
    Quiet w (w.modifyAt i f) :=
  ⟨rfl, rfl, Lists.map_modify_of_get ht hf, fun _ => rfl⟩

theorem still_modifyAt {i : Nat} {t : BtTabObj ρ} {f : BtTabObj ρ → BtTabObj ρ}
    (ht : w.connectedTablets[i]? = some t) (hf : (f t).mark = t.mark)
    (hs : (f t).transactionState = t.transactionState) : Still w (w.modifyAt i f) := by
  have hserial : (f t).serial = t.serial := congrArg (fun m => m.1.serial) hf
  refine ⟨quiet_modifyAt ht hf, Lists.map_modify_of_get ht ?_⟩
  rw [hserial, hs]

theorem quiet_modify (w : Bluetooth ρ) (p : ρ) {f : BtTabObj ρ → BtTabObj ρ}
    (hf : ∀ t, (f t).mark = t.mark) : Quiet w (w.modify A p f) := by
  unfold Bluetooth.modify
  cases w.index A p with
  | none => exact .refl w
  | some i => exact ⟨rfl, rfl, Lists.map_modify_of_eq hf _ _, fun _ => rfl⟩

theorem still_modify (w : Bluetooth ρ) (p : ρ) {f : BtTabObj ρ → BtTabObj ρ}
    (hf : ∀ t, (f t).mark = t.mark) (hs : ∀ t, (f t).transactionState = t.transactionState) :
    Still w (w.modify A p f) := by
  refine ⟨quiet_modify w p hf, ?_⟩
  unfold Bluetooth.modify
  cases w.index A p with
  | none => rfl
  | some i =>
      refine Lists.map_modify_of_eq (fun t => ?_) _ _
      have hserial : (f t).serial = t.serial := congrArg (fun m => m.1.serial) (hf t)
      rw [hs, hserial]

/-! ## The jobs and the results -/

theorem Still.job {i : Nat} {e : Event winsock} (h : w.jobReturned A i e = some w') :
    Still w w' ∧ w'.pc = w.pc ∧ w'.runningTransactions = w.runningTransactions := by
  obtain ⟨t, s, prog, ht, _, _, _, hw'⟩ := jobReturned_eq_some h
  have h₁ : Still w (w.modifyAt i (advance s prog)) := still_modifyAt ht rfl rfl
  have hpc : ∀ (w : Bluetooth ρ) (p : ρ) (f : BtTabObj ρ → BtTabObj ρ),
      (w.modify A p f).pc = w.pc := by
    intro w p f
    unfold Bluetooth.modify
    cases w.index A p with
    | none => rfl
    | some i => rfl
  rcases hw' with ⟨b, _, rfl⟩ | rfl
  · have h₂ : Still _ ((w.modifyAt i (advance s prog)).modify A s.success (setFlag b)) :=
      still_modify _ _ (fun _ => rfl) fun _ => rfl
    exact ⟨h₁.trans (h₂.trans (still_note _ fun _ => Effect.noConfusion)), hpc _ _ _,
      (modify_queue _ _ _).1⟩
  · exact ⟨h₁.trans (still_note _ fun _ => Effect.noConfusion), rfl, rfl⟩

/-- A pointer that leads to a tablet. -/
theorem deref_eq_some {p : ρ} {t : BtTabObj ρ} :
    w.deref A p = some t ↔ ∃ i, w.index A p = some i ∧ w.connectedTablets[i]? = some t :=
  Option.bind_eq_some_iff

/-- What a handled result does to the table before the transaction state is looked at. -/
theorem still_stored {parse : List Byte → Option Json} {trans : ρ} {t : BtTabObj ρ}
    {r : Handled ρ} (hderef : w.deref A trans = some t)
    (hr : handleTransResult parse t.currTrans = .ok r) :
    Still w (w.modify A trans (store r.trans)) := by
  obtain ⟨i, hi, ht⟩ := deref_eq_some.mp hderef
  rw [modify_of_index hi]
  refine still_modifyAt ht ?_ rfl
  rcases handleTransResult_ok hr with ⟨_, h⟩ | ⟨_, h⟩
  · show (store r.trans t).mark = t.mark
    rw [h]
    rfl
  · show (store r.trans t).mark = t.mark
    rw [h]
    rfl

theorem still_name (w : Bluetooth ρ) (parent : ρ) (owner : Nat) (n : Option (List Byte)) :
    Still w (w.name A parent owner n) := by
  cases n with
  | none => exact .refl w
  | some n =>
      have h : Still w (w.modify A parent (setScoutingName n)) :=
        still_modify w parent (fun _ => rfl) fun _ => rfl
      exact h.trans (still_note _ fun _ => Effect.noConfusion)

/-- `handleTransResult` called for a transaction: it waits, fails, or the transaction is over. -/
theorem handle_eq_some {parse : List Byte → Option Json} {trans : ρ} {owner : Nat}
    {caller : Caller} (h : w.handle A parse trans owner caller = some w') :
    Still w w' ∧ w'.runningTransactions = w.runningTransactions ∧
        (w'.pc = w.pc ∨ w'.pc = .crashed ∨ ∃ i, caller = .ready i ∧ w'.pc = .ready (i + 1)) ∨
      ∃ i, caller = .running i ∧ Quiet w w' ∧ w'.pc = .running (i + 1) ∧
        w'.runningTransactions = w.runningTransactions.eraseIdx i := by
  rcases handle_cases h with ⟨_, rfl⟩ | ⟨t, w₁, hderef, hconsult, hcase⟩
  · exact Or.inl ⟨still_goto w _, rfl, Or.inr (Or.inl rfl)⟩
  -- asking the future is noted, and nothing else
  have hnoted : Still w w₁ ∧ w₁.pc = w.pc ∧ w₁.runningTransactions = w.runningTransactions ∧
      w₁.deref A trans = some t := by
    rcases hconsult with rfl | rfl
    · exact ⟨.refl w₁, rfl, rfl, hderef⟩
    · exact ⟨still_consult w t, rfl, rfl, hderef⟩
  obtain ⟨h₁, hpc₁, hq₁, hderef₁⟩ := hnoted
  rcases hcase with ⟨_, _, rfl⟩ | rfl | ⟨r, hr, rfl⟩
  · refine Or.inl ⟨h₁.trans (still_modify w₁ trans (fun _ => rfl) fun _ => rfl), ?_, Or.inl ?_⟩
    · rw [(modify_queue _ _ _).1, hq₁]
    · obtain ⟨i, hi, _⟩ := deref_eq_some.mp hderef₁
      rw [modify_of_index hi]
      exact hpc₁
  · exact Or.inl ⟨h₁.trans (still_goto w₁ _), hq₁, Or.inr (Or.inl rfl)⟩
  · have h₂ : Still w ((w₁.modify A trans (store r.trans)).note (.submitted owner r.statements)) :=
      h₁.trans ((still_stored hderef₁ hr).trans (still_note _ fun _ => Effect.noConfusion))
    have hq₂ : ((w₁.modify A trans (store r.trans)).note
        (.submitted owner r.statements)).runningTransactions = w.runningTransactions :=
      (modify_queue _ _ _).1.trans hq₁
    unfold handled
    dsimp only
    split
    · exact Or.inl ⟨h₂.trans (still_goto _ _), hq₂, Or.inr (Or.inl rfl)⟩
    · rename_i parent hparent
      have h₃ := h₂.trans (still_name (A := A) _ parent owner r.name)
      have hq₃ : ∀ w : Bluetooth ρ,
          (w.name A parent owner r.name).runningTransactions = w.runningTransactions := by
        intro w
        unfold Bluetooth.name
        split
        · rfl
        · exact (modify_queue _ _ _).1
      cases caller with
      | ready i =>
          exact Or.inl ⟨h₃.trans (still_goto _ _), (hq₃ _).trans hq₂, Or.inr (Or.inr ⟨i, rfl, rfl⟩)⟩
      | running i =>
          refine Or.inr ⟨i, rfl, ?_, rfl, ?_⟩
          · refine h₃.toQuiet.trans ((still_erase _ i).toQuiet.trans ?_)
            refine (quiet_modify (A := A) (f := setTransactionState false) _ parent
              fun _ => rfl).trans ?_
            exact ((still_note _ fun _ => Effect.noConfusion).trans (still_goto _ _)).toQuiet
          · refine (modify_queue _ _ _).1.trans ?_
            exact congrArg (·.eraseIdx i) ((hq₃ _).trans hq₂)

/-- At index `i` of the queue: the end, or a transaction that is ready, or not, or gone. -/
theorem still_checkRunning (w : Bluetooth ρ) (i : Nat) : Still w (w.checkRunning A i) := by
  unfold checkRunning
  split
  · exact still_goto w _
  · split
    · exact still_goto w _
    · rename_i t _
      split
      · exact (still_consult w t).trans (still_goto _ _)
      · exact (still_consult w t).trans (still_goto _ _)
      · exact (still_consult w t).trans (still_goto _ _)

/-! ## The invariant of the table -/

/-- What holds of the table in every run. -/
structure TableInv (A : Addressing ρ) (w : Bluetooth ρ) : Prop where
  sockets : w.sockets.Nodup
  serials : w.serials.Pairwise (· < ·)
  fresh : ∀ n ∈ w.serials, n < w.accepted
  /-- Only the tablet that is being hung up on is to be removed. -/
  calm : ∀ j t, w.connectedTablets[j]? = some t → t.currTrans.batmanTrans = true →
    ∃ q, w.pc = .started j q
  started : ∀ i q, w.pc = .started i q → ∃ t, w.connectedTablets[i]? = some t ∧
    w.index A q = some i ∧ t.currTrans.parent = some q

theorem TableInv.nodup (h : TableInv A w) : w.serials.Nodup :=
  h.serials.imp Nat.ne_of_lt

theorem tableInv_init : TableInv A (init : Bluetooth ρ) where
  sockets := List.nodup_nil
  serials := .nil
  fresh _ h := absurd h List.not_mem_nil
  calm _ _ h := by simp [init] at h
  started _ _ h := by simp [init] at h

/-- **What a step does to the table**, and to the main thread. -/
inductive TableStep (A : Addressing ρ) (w : Bluetooth ρ) : Act → Bluetooth ρ → Prop where
  | nobody {grow : Nat} : w.pc = .idle → TableStep A w (.updateAllBt none grow) (w.goto (.ready 0))
  | accept {socket : Socket} {mac : List Byte} {grow : Nat} {w' : Bluetooth ρ} :
      w.pc = .idle → w.acceptConn (some (socket, mac)) grow = some w' →
      TableStep A w (.updateAllBt (some (socket, mac)) grow) (w'.goto (.ready 0))
  | kill {deleteSock : Socket} {w' : Bluetooth ρ} : w.pc = .idle →
      w.killSocket deleteSock = some w' → TableStep A w (.killSocket deleteSock) w'
  | killAll {w' : Bluetooth ρ} : w.pc = .idle → w.killAllSockets = some w' →
      TableStep A w .killAllSockets w'
  | job {i : Nat} {e : Event winsock} {w' : Bluetooth ρ} : w.jobReturned A i e = some w' →
      Still w w' → w'.pc = w.pc → TableStep A w (.job i e) w'
  /-- The next tablet is asked whether it has something to say. -/
  | ask {i : Nat} {t : BtTabObj ρ} {launch : Launch} {readWholeFile : Files} :
      w.pc = .ready i → w.connectedTablets[i]? = some t →
      TableStep A w (.go launch readWholeFile) (w.goto (.polling i (serveTablet t.transactionState)))
  | readyDone {i : Nat} {launch : Launch} {readWholeFile : Files} :
      w.pc = .ready i → w.connectedTablets[i]? = none →
      TableStep A w (.go launch readWholeFile) (w.goto (.running 0))
  | call {i : Nat} {p p' : Job (Option TransactionType)} {t : BtTabObj ρ} {e : Event winsock} :
      w.pc = .polling i p → p.feed e = some p' → w.connectedTablets[i]? = some t →
      TableStep A w (.call e) (if e.1 = .closesocket then
        (w.goto (.polling i p')).note (.closed t.serial) else w.goto (.polling i p'))
  | pass {i : Nat} {p : Job (Option TransactionType)} {launch : Launch} {readWholeFile : Files} :
      w.pc = .polling i p → p.result? = some none →
      TableStep A w (.go launch readWholeFile) (w.goto (.ready (i + 1)))
  | serve {i : Nat} {p : Job (Option TransactionType)} {c : TransactionType} {t : BtTabObj ρ}
      {launch : Launch} {readWholeFile : Files} :
      w.pc = .polling i p → p.result? = some (some c) → w.connectedTablets[i]? = some t →
      TableStep A w (.go launch readWholeFile)
        ((w.modifyAt i (serve (w.pointer A i) launch readWholeFile c)).goto
          (.started i (w.pointer A i)))
  | goodbye {i : Nat} {q : ρ} {t : BtTabObj ρ} {launch : Launch} {readWholeFile : Files} :
      w.pc = .started i q → w.connectedTablets[i]? = some t → t.currTrans.batmanTrans = true →
      TableStep A w (.go launch readWholeFile)
        (({ w with connectedTablets := w.connectedTablets.eraseIdx i }.note
          (.closed t.serial)).goto (.ready (i + 1)))
  | queue {i : Nat} {q : ρ} {t : BtTabObj ρ} {launch : Launch} {readWholeFile : Files}
      {w' : Bluetooth ρ} :
      w.pc = .started i q → w.connectedTablets[i]? = some t → t.currTrans.batmanTrans = false →
      Quiet w w' → w'.states.drop (i + 1) = w.states.drop (i + 1) → w'.pc = .ready (i + 1) →
      TableStep A w (.go launch readWholeFile) w'
  | result {i : Nat} {q : ρ} {t : BtTabObj ρ} {launch : Launch} {readWholeFile : Files}
      {w' : Bluetooth ρ} :
      w.pc = .started i q → w.connectedTablets[i]? = some t → t.currTrans.batmanTrans = false →
      Still w w' → w'.pc = .crashed ∨ w'.pc = .handling q t.serial (.ready i) →
      TableStep A w (.go launch readWholeFile) w'
  | handleReady {i : Nat} {q : ρ} {owner : Nat} {launch : Launch} {readWholeFile : Files}
      {w' : Bluetooth ρ} :
      w.pc = .handling q owner (.ready i) → Still w w' →
      w'.pc = w.pc ∨ w'.pc = .crashed ∨ w'.pc = .ready (i + 1) →
      TableStep A w (.go launch readWholeFile) w'
  /-- Something happens to a transaction that is running. -/
  | running {launch : Launch} {readWholeFile : Files} {w' : Bluetooth ρ} :
      ((∃ i, w.pc = .running i) ∨ ∃ q owner i, w.pc = .handling q owner (.running i)) →
      Quiet w w' → ((∃ i, w'.pc = .running i) ∨ (∃ q owner i, w'.pc = .handling q owner (.running i)) ∨
        w'.pc = .idle ∨ w'.pc = .crashed) →
      TableStep A w (.go launch readWholeFile) w'

/-- The main thread is about to learn the code of a tablet, or has learnt it. -/
def holdsTablet : Pc ρ → Bool
  | .polling _ _ => true
  | .started _ _ => true
  | _ => false

/-- The steps after which it has a tablet in hand. -/
inductive HandStep (A : Addressing ρ) (w : Bluetooth ρ) : Act → Bluetooth ρ → Prop where
  | job {i : Nat} {e : Event winsock} {w' : Bluetooth ρ} : Still w w' → w'.pc = w.pc →
      HandStep A w (.job i e) w'
  | ask {i : Nat} {t : BtTabObj ρ} {launch : Launch} {readWholeFile : Files} :
      w.connectedTablets[i]? = some t →
      HandStep A w (.go launch readWholeFile) (w.goto (.polling i (serveTablet t.transactionState)))
  | call {i : Nat} {p p' : Job (Option TransactionType)} {t : BtTabObj ρ} {e : Event winsock}
      {w' : Bluetooth ρ} : w.pc = .polling i p → p.feed e = some p' →
      w.connectedTablets[i]? = some t → w'.pc = .polling i p' →
      w'.connectedTablets = w.connectedTablets → HandStep A w (.call e) w'
  | serve {i : Nat} {p : Job (Option TransactionType)} {c : TransactionType} {t : BtTabObj ρ}
      {launch : Launch} {readWholeFile : Files} :
      w.pc = .polling i p → p.result? = some (some c) → w.connectedTablets[i]? = some t →
      HandStep A w (.go launch readWholeFile)
        ((w.modifyAt i (serve (w.pointer A i) launch readWholeFile c)).goto
          (.started i (w.pointer A i)))

theorem TableStep.handStep {a : Act} (hs : TableStep A w a w') (h : holdsTablet w'.pc = true) :
    HandStep A w a w' := by
  have hno : ∀ pc : Pc ρ, holdsTablet pc = false → w'.pc = pc → False := by
    intro pc hpc heq
    rw [heq, hpc] at h
    exact Bool.noConfusion h
  cases hs with
  | nobody _ => exact Bool.noConfusion h
  | accept _ _ => exact Bool.noConfusion h
  | kill hidle hw =>
      rcases killSocket_eq_some hw with ⟨_, rfl⟩ | ⟨_, _, _, _, _, rfl⟩
      · exact (hno _ rfl hidle).elim
      · exact (hno _ rfl hidle).elim
  | killAll hidle hw =>
      unfold killAllSockets at hw
      split at hw
      · exact absurd hw (by simp)
      · cases hw
        exact (hno _ rfl hidle).elim
  | job _ hstill hsame => exact .job hstill hsame
  | ask _ ht => exact .ask ht
  | readyDone _ _ => exact Bool.noConfusion h
  | call hpc hf ht =>
      split
      · exact .call hpc hf ht rfl rfl
      · exact .call hpc hf ht rfl rfl
  | pass _ _ => exact Bool.noConfusion h
  | serve hpc hres ht => exact .serve hpc hres ht
  | goodbye _ _ _ => exact Bool.noConfusion h
  | queue _ _ _ _ _ hpc' => exact (hno _ rfl hpc').elim
  | result _ _ _ _ hpc' =>
      rcases hpc' with hpc' | hpc'
      · exact (hno _ rfl hpc').elim
      · exact (hno _ rfl hpc').elim
  | handleReady hpc _ hpc' =>
      rcases hpc' with hpc' | hpc' | hpc'
      · exact (hno _ rfl (hpc'.trans hpc)).elim
      · exact (hno _ rfl hpc').elim
      · exact (hno _ rfl hpc').elim
  | running _ _ hpc' =>
      rcases hpc' with ⟨_, hpc'⟩ | ⟨_, _, _, hpc'⟩ | hpc' | hpc'
      · exact (hno _ rfl hpc').elim
      · exact (hno _ rfl hpc').elim
      · exact (hno _ rfl hpc').elim
      · exact (hno _ rfl hpc').elim

/-- The step of a transaction that was started. -/
theorem TableInv.startedTrans (h : TableInv A w) {i : Nat} {q : ρ} (hpc : w.pc = .started i q)
    {launch : Launch} {readWholeFile : Files} (hw : w.startedTrans A i q = some w') :
    TableStep A w (.go launch readWholeFile) w' := by
  obtain ⟨t, ht, hq, hparent⟩ := h.started i q hpc
  have hderef : w.deref A q = some t := deref_eq_some.mpr ⟨i, hq, ht⟩
  cases hbatman : t.currTrans.batmanTrans with
  | true =>
      unfold Bluetooth.startedTrans at hw
      rw [hderef] at hw
      dsimp only at hw
      rw [if_pos hbatman, hparent, Option.bind_some, hderef] at hw
      obtain ⟨w₁, hw₁, rfl⟩ := Option.map_eq_some_iff.mp hw
      have hfind := findSocket_of_get h.sockets ht
      rcases killSocket_eq_some hw₁ with ⟨hnone, _⟩ | ⟨j, t', hj, ht', _, rfl⟩
      · rw [hfind] at hnone
        exact absurd hnone (by simp)
      · rw [hfind] at hj
        cases hj
        rw [ht] at ht'
        cases ht'
        exact .goodbye hpc ht hbatman
  | false =>
      have hnoted := still_consult w t
      rcases startedTrans_stays hderef hbatman hparent hq hw with rfl | ⟨_, rfl⟩ | rfl
      · exact .result hpc ht hbatman (hnoted.trans (still_goto _ _)) (Or.inl rfl)
      · exact .result hpc ht hbatman (hnoted.trans (still_goto _ _)) (Or.inr rfl)
      · refine .queue hpc ht hbatman ?_ ?_ rfl
        · have hset : Quiet ((w.consult t).push ⟨q, t.serial⟩)
              (((w.consult t).push ⟨q, t.serial⟩).modifyAt i (setTransactionState true)) :=
            quiet_modifyAt ht rfl
          exact hnoted.toQuiet.trans ((quiet_push _ _).trans (hset.trans (still_goto _ _).toQuiet))
        · show ((w.connectedTablets.modify i _).map _).drop (i + 1) = _
          rw [← List.map_drop, List.drop_modify_of_lt _ _ _ _ (Nat.lt_succ_self i), List.map_drop]
          rfl

/-- Every step is one of these. -/
theorem TableInv.tableStep (h : TableInv A w) {parse : List Byte → Option Json} {a : Act}
    (hw : w.act A parse a = some w') : TableStep A w a w' := by
  unfold act at hw
  cases a with
  | updateAllBt peer grow =>
      dsimp only at hw
      split at hw
      · rename_i hpc
        obtain ⟨w₁, hw₁, rfl⟩ := Option.map_eq_some_iff.mp hw
        cases peer with
        | none =>
            cases hw₁
            exact .nobody hpc
        | some peer => exact .accept hpc hw₁
      · exact absurd hw (by simp)
  | call e =>
      dsimp only at hw
      unfold callReturned at hw
      split at hw
      · rename_i i p hpc
        split at hw
        · rename_i p' t hp ht
          rw [← Option.some.inj hw]
          exact .call hpc hp ht
        · exact absurd hw (by simp)
      · exact absurd hw (by simp)
  | job i e =>
      dsimp only at hw
      split at hw
      · exact absurd hw (by simp)
      · obtain ⟨hstill, hpc, _⟩ := Still.job hw
        exact .job hw hstill hpc
  | killSocket deleteSock =>
      dsimp only at hw
      split at hw
      · rename_i hpc
        exact .kill hpc hw
      · exact absurd hw (by simp)
  | killAllSockets =>
      dsimp only at hw
      split at hw
      · rename_i hpc
        exact .killAll hpc hw
      · exact absurd hw (by simp)
  | go launch readWholeFile =>
      dsimp only at hw
      unfold Bluetooth.go at hw
      split at hw
      · rename_i i hpc
        split at hw
        · rename_i hnone
          cases hw
          exact .readyDone hpc hnone
        · rename_i t ht
          cases hw
          exact .ask hpc ht
      · rename_i i p hpc
        obtain ⟨r, hr, hw⟩ := Option.bind_eq_some_iff.mp hw
        cases r with
        | none =>
            cases hw
            exact .pass hpc hr
        | some c =>
            obtain ⟨t, ht, _, rfl⟩ := polled_some hw
            exact .serve hpc hr ht
      · rename_i i q hpc
        exact h.startedTrans hpc hw
      · rename_i q owner caller hpc
        rcases handle_eq_some hw with ⟨hstill, _, hpc'⟩ | ⟨i, rfl, hquiet, hpc', _⟩
        · cases caller with
          | ready i =>
              refine .handleReady hpc hstill (hpc'.imp_right (Or.imp_right ?_))
              rintro ⟨j, hj, hpc'⟩
              cases hj
              exact hpc'
          | running i =>
              refine .running (Or.inr ⟨q, owner, i, hpc⟩) hstill.toQuiet ?_
              rcases hpc' with hpc' | hpc' | ⟨j, hj, _⟩
              · exact Or.inr (Or.inl ⟨q, owner, i, hpc'.trans hpc⟩)
              · exact Or.inr (Or.inr (Or.inr hpc'))
              · exact Caller.noConfusion hj
        · exact .running (Or.inr ⟨q, owner, i, hpc⟩) hquiet (Or.inl ⟨i + 1, hpc'⟩)
      · rename_i i hpc
        cases hw
        refine .running (Or.inl ⟨i, hpc⟩) (still_checkRunning w i).toQuiet ?_
        unfold checkRunning
        split
        · exact Or.inr (Or.inr (Or.inl rfl))
        · split
          · exact Or.inr (Or.inr (Or.inr rfl))
          · split
            · exact Or.inr (Or.inr (Or.inr rfl))
            · exact Or.inr (Or.inl ⟨_, _, _, rfl⟩)
            · exact Or.inl ⟨_, rfl⟩
      · exact absurd hw (by simp)
      · exact absurd hw (by simp)

/-! ## The invariant is kept -/

/-- No tablet but the one at index `i` is to be removed. -/
theorem TableInv.calm_of_started (h : TableInv A w) {i j : Nat} {q : ρ} {t : BtTabObj ρ}
    (hpc : w.pc = .started i q) (ht : w.connectedTablets[j]? = some t) (hne : j ≠ i) :
    t.currTrans.batmanTrans = false := by
  cases hb : t.currTrans.batmanTrans with
  | false => rfl
  | true =>
      obtain ⟨q', hpc'⟩ := h.calm j t ht hb
      rw [hpc] at hpc'
      cases hpc'
      exact absurd rfl hne

theorem TableInv.calm_of_pc (h : TableInv A w) {j : Nat} {t : BtTabObj ρ}
    (hpc : ∀ i q, w.pc ≠ .started i q) (ht : w.connectedTablets[j]? = some t) :
    t.currTrans.batmanTrans = false := by
  cases hb : t.currTrans.batmanTrans with
  | false => rfl
  | true =>
      obtain ⟨q, hpc'⟩ := h.calm j t ht hb
      exact absurd hpc' (hpc j q)

/-- Nor the one that was served, unless it said goodbye. -/
theorem TableInv.calm_of_free (h : TableInv A w) {i j : Nat} {q : ρ} {t u : BtTabObj ρ}
    (hpc : w.pc = .started i q) (ht : w.connectedTablets[i]? = some t)
    (hb : t.currTrans.batmanTrans = false) (hu : w.connectedTablets[j]? = some u) :
    u.currTrans.batmanTrans = false := by
  by_cases hij : j = i
  · subst hij
    rw [ht] at hu
    rw [← Option.some.inj hu]
    exact hb
  · exact h.calm_of_started hpc hu hij

theorem TableInv.quiet (h : TableInv A w) (hq : Quiet w w')
    (hpc : w'.pc = w.pc ∨ (∀ i q, w'.pc ≠ .started i q) ∧ ∀ (j : Nat) (t : BtTabObj ρ),
      w.connectedTablets[j]? = some t → t.currTrans.batmanTrans = false) : TableInv A w' := by
  refine ⟨hq.sockets ▸ h.sockets, hq.serials ▸ h.serials, ?_, fun j t' ht' hb => ?_,
    fun i q hst => ?_⟩
  · rw [hq.serials, hq.accepted]
    exact h.fresh
  · obtain ⟨t, ht, hm⟩ := hq.get ht'
    have hbat : t'.currTrans.batmanTrans = t.currTrans.batmanTrans :=
      congrArg (fun m => m.2.2) hm
    rw [hbat] at hb
    rcases hpc with hpc | ⟨_, hcalm⟩
    · rw [hpc]
      exact h.calm j t ht hb
    · rw [hcalm j t ht] at hb
      exact Bool.noConfusion hb
  · rcases hpc with hpc | ⟨hno, _⟩
    · rw [hpc] at hst
      obtain ⟨t, ht, hindex, hparent⟩ := h.started i q hst
      obtain ⟨t', ht', hm⟩ := hq.get' ht
      have hpar : t'.currTrans.parent = t.currTrans.parent := congrArg (fun m => m.2.1) hm
      refine ⟨t', ht', ?_, hpar.trans hparent⟩
      rw [hq.index]
      exact hindex
    · exact absurd hst (hno i q)

theorem TableInv.goto (h : TableInv A w) (hpc : ∀ i q, w.pc ≠ .started i q) {pc : Pc ρ}
    (hpc' : ∀ i q, pc ≠ .started i q) : TableInv A (w.goto pc) :=
  h.quiet (still_goto w pc).toQuiet (Or.inr ⟨hpc', fun _ _ => h.calm_of_pc hpc⟩)

/-- A tablet leaves, and none that stays is to be removed. -/
theorem TableInv.erase (h : TableInv A w) {i n : Nat} {pc : Pc ρ}
    (hpc : ∀ i q, pc ≠ .started i q) (hcalm : ∀ (j : Nat) (t : BtTabObj ρ),
      w.connectedTablets[j]? = some t → j ≠ i → t.currTrans.batmanTrans = false) :
    TableInv A (({ w with connectedTablets := w.connectedTablets.eraseIdx i }.note
      (.closed n)).goto pc) := by
  have hsub : (w.connectedTablets.eraseIdx i).Sublist w.connectedTablets :=
    List.eraseIdx_sublist _ _
  refine ⟨h.sockets.sublist (hsub.map _), h.serials.sublist (hsub.map _), ?_, ?_, ?_⟩
  · exact fun m hm => h.fresh m ((hsub.map _).subset hm)
  · intro j t ht hb
    obtain ⟨k, hk, ht⟩ := List.mem_eraseIdx_iff_getElem?.mp (List.mem_of_getElem? ht)
    rw [hcalm k t ht hk] at hb
    exact Bool.noConfusion hb
  · exact fun j q hst => absurd hst (hpc j q)

theorem TableInv.accept (h : TableInv A w) {socket : Socket} {mac : List Byte} {grow : Nat}
    (hpc : ∀ i q, w.pc ≠ .started i q) (hw : w.acceptConn (some (socket, mac)) grow = some w') :
    TableInv A (w'.goto (.ready 0)) := by
  obtain ⟨_, htab, _, hserials, hacc, _, _, _⟩ := acceptConn_eq_some hw
  have hsockets : w'.sockets.Nodup := acceptConn_sockets_nodup h.sockets hw
  refine ⟨hsockets, ?_, ?_, ?_, ?_⟩
  · show w'.serials.Pairwise (· < ·)
    rw [hserials]
    refine List.pairwise_append.mpr ⟨h.serials, List.pairwise_singleton _ _, ?_⟩
    intro n hn m hm
    rw [List.mem_singleton.mp hm]
    exact h.fresh n hn
  · show ∀ n ∈ w'.serials, n < w'.accepted
    rw [hserials, hacc]
    intro n hn
    rcases List.mem_append.mp hn with hn | hn
    · exact Nat.lt_succ_of_lt (h.fresh n hn)
    · rw [List.mem_singleton.mp hn]
      exact Nat.lt_succ_self _
  · intro j t ht hb
    have ht : t ∈ w'.connectedTablets := List.mem_of_getElem? ht
    rw [htab] at ht
    rcases List.mem_append.mp ht with ht | ht
    · obtain ⟨k, hk⟩ := List.mem_iff_getElem?.mp ht
      rw [h.calm_of_pc hpc hk] at hb
      exact Bool.noConfusion hb
    · rw [List.mem_singleton.mp ht] at hb
      exact Bool.noConfusion hb
  · intro i q hst
    exact absurd hst (by simp [Bluetooth.goto])

theorem TableInv.serve (h : TableInv A w) {i : Nat} {t : BtTabObj ρ} {launch : Launch}
    {readWholeFile : Files} {c : TransactionType} (hpc : ∀ i q, w.pc ≠ .started i q)
    (ht : w.connectedTablets[i]? = some t) :
    TableInv A ((w.modifyAt i (serve (w.pointer A i) launch readWholeFile c)).goto
      (.started i (w.pointer A i))) := by
  have hst := sameTable_modifyAt (keepsPlace_serve (w.pointer A i) launch readWholeFile c) w i
  have hget := modifyAt_get w i (Bluetooth.serve (w.pointer A i) launch readWholeFile c)
  refine ⟨hst.sockets ▸ h.sockets, hst.serials ▸ h.serials, hst.serials ▸ h.fresh, ?_, ?_⟩
  · intro j u hu hb
    have hu : (w.modifyAt i (Bluetooth.serve (w.pointer A i) launch readWholeFile
      c)).connectedTablets[j]? = some u := hu
    rw [hget] at hu
    by_cases hij : i = j
    · subst hij
      exact ⟨_, rfl⟩
    · rw [if_neg hij] at hu
      rw [h.calm_of_pc hpc hu] at hb
      exact Bool.noConfusion hb
  · intro j q hst'
    cases hst'
    refine ⟨Bluetooth.serve (w.pointer A i) launch readWholeFile c t, ?_, ?_, ?_⟩
    · show (w.modifyAt i _).connectedTablets[i]? = _
      rw [hget, if_pos rfl, ht]
      rfl
    · show A.find w.buf (w.modifyAt i _).sockets _ = some i
      rw [hst.sockets]
      refine A.find_addr h.sockets ?_
      obtain ⟨hi, _⟩ := List.getElem?_eq_some_iff.mp ht
      rw [Bluetooth.sockets, List.length_map]
      exact hi
    · obtain ⟨data, batmanTrans, success, writeTransaction, heq, _⟩ := initReadyTransaction_read
        (w.pointer A i) launch readWholeFile t.serial (t.codesRead + 1) c t.currTrans
      unfold Bluetooth.serve
      rw [heq]

/-- **Preserved by every step.** -/
theorem TableInv.step (h : TableInv A w) {a : Act} (hs : TableStep A w a w') :
    TableInv A w' := by
  have hidle : ∀ pc : Pc ρ, (∀ i q, pc ≠ .started i q) → w.pc = pc → ∀ i q, w.pc ≠ .started i q :=
    fun pc hno hpc i q => hpc ▸ hno i q
  cases hs with
  | nobody hpc => exact h.goto (hidle _ (by simp) hpc) (by simp)
  | accept hpc hw => exact h.accept (hidle _ (by simp) hpc) hw
  | kill hpc hw =>
      rcases killSocket_eq_some hw with ⟨_, rfl⟩ | ⟨i, t, _, _, _, rfl⟩
      · exact h
      · have hno := hidle .idle (by simp) hpc
        have herase : TableInv A (({ w with
            connectedTablets := w.connectedTablets.eraseIdx i }.note (.closed t.serial)).goto w.pc) :=
          h.erase hno fun j t ht _ => h.calm_of_pc hno ht
        exact herase
  | killAll hpc hw =>
      unfold Bluetooth.killAllSockets at hw
      split at hw
      · exact absurd hw (by simp)
      · cases hw
        refine ⟨List.nodup_nil, .nil, fun n hn => absurd hn List.not_mem_nil, ?_, ?_⟩
        · exact fun j t ht => absurd ht (by simp)
        · exact fun i q hst => absurd hst (hidle .idle (by simp) hpc i q)
  | job hw hstill hpc => exact h.quiet hstill.toQuiet (Or.inl hpc)
  | ask hpc ht => exact h.goto (hidle _ (by simp) hpc) (by simp)
  | readyDone hpc hnone => exact h.goto (hidle _ (by simp) hpc) (by simp)
  | @call i p p' t e hpc hp ht =>
      have h₁ : TableInv A (w.goto (.polling i p')) := h.goto (hidle _ (by simp) hpc) (by simp)
      split
      · exact ⟨h₁.sockets, h₁.serials, h₁.fresh, h₁.calm, h₁.started⟩
      · exact h₁
  | pass hpc hr => exact h.goto (hidle _ (by simp) hpc) (by simp)
  | serve hpc hr ht => exact h.serve (hidle _ (by simp) hpc) ht
  | goodbye hpc ht hb =>
      exact h.erase (by simp) fun j u hu hne => h.calm_of_started hpc hu hne
  | queue hpc ht hb hq hstates hpc' =>
      exact h.quiet hq (Or.inr ⟨by rw [hpc']; simp, fun j u => h.calm_of_free hpc ht hb⟩)
  | result hpc ht hb hstill hpc' =>
      refine h.quiet hstill.toQuiet (Or.inr ⟨?_, fun j u => h.calm_of_free hpc ht hb⟩)
      rcases hpc' with hpc' | hpc'
      · rw [hpc']
        simp
      · rw [hpc']
        simp
  | handleReady hpc hstill hpc' =>
      have hno := fun (j : Nat) (t : BtTabObj ρ) => h.calm_of_pc (j := j) (t := t)
        (hidle _ (by simp) hpc)
      refine h.quiet hstill.toQuiet ?_
      rcases hpc' with hpc' | hpc' | hpc'
      · exact Or.inl hpc'
      · exact Or.inr ⟨by rw [hpc']; simp, hno⟩
      · exact Or.inr ⟨by rw [hpc']; simp, hno⟩
  | running hpc hq hpc' =>
      refine h.quiet hq (Or.inr ⟨?_, fun j t => h.calm_of_pc ?_⟩)
      · intro i q hst
        rw [hst] at hpc'
        simp at hpc'
      · rcases hpc with ⟨k, hpc⟩ | ⟨q, o, k, hpc⟩
        · exact hidle _ (by simp) hpc
        · exact hidle _ (by simp) hpc

theorem tableInv_run {parse : List Byte → Option Json} {ok : Bluetooth ρ → Act → Prop}
    (h : Run A parse ok w) : TableInv A w :=
  Steps.Run.invariant h tableInv_init fun _ _ _ hi _ hw => hi.step (hi.tableStep hw)

end Bluetooth

end ScoutComputer
