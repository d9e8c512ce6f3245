import ScoutComputer.Bluetooth.HistoryProof
import ScoutComputer.Lib.EraseLoop

/-!
# Who is served in one pass of `handleReadyConnections`

The loop goes by index, and `killSocket` erases the tablet at the index from the vector
the loop runs over. A pass is what lies between `ready 0` and the start of
`handleRunningTransactions`; jobs may go on in between.
-/

namespace ScoutComputer

open Interact EraseLoop

/-- A `select` for reading that reports something to read. -/
def ReportsReady : (c : Call) → c.Res → Prop
  | .select false, sockState => (show Int from sockState) ≠ 0 ∧ (show Int from sockState) ≠ socketError
  | _, _ => True

instance : (c : Call) → (r : c.Res) → Decidable (ReportsReady c r)
  | .select false, sockState => inferInstanceAs (Decidable
      ((show Int from sockState) ≠ 0 ∧ (show Int from sockState) ≠ socketError))
  | .select true, _ | .malloc _, _ | .getTime _, _ | .recv _, _ | .send _, _ | .closesocket, _ |
    .setSuccess _, _ => isTrue trivial

/-- Nothing is remembered, and there is something to read. -/
def readable : Observer winsock Unit where
  allow _ c r := ReportsReady c r
  next _ _ _ := ()

/-- A free tablet with something to read is asked for its code. -/
theorem serveTablet_readable :
    Spec readable (serveTablet false) () (fun _ => True) fun _ r => r.isSome = true := by
  refine Spec.call trivial fun sockState hready => ?_
  have hready : (show Int from sockState) ≠ 0 ∧ (show Int from sockState) ≠ socketError := hready
  show Spec readable (Prog.bind (if _ then _ else _) _) _ _ _
  rw [if_neg hready.2]
  show Spec readable (if _ then _ else _) _ _ _
  have hne : ((show Int from sockState) ≠ 0 : Bool) = true := decide_eq_true hready.1
  rw [if_neg (by rw [hne]; exact Bool.false_ne_true)]
  refine Spec.bind (Spec.trivial readTransactionData ()) fun _ c _ => ?_
  exact Spec.bind (Spec.trivial (farewell c) ()) fun _ _ _ => Spec.ret trivial rfl

namespace Bluetooth

variable {ρ : Type} {A : Addressing ρ} {w w' : Bluetooth ρ} {parse : List Byte → Option Json}

/-- Inside `handleReadyConnections`. -/
def InReady : Pc ρ → Prop
  | .ready _ | .polling _ _ | .started _ _ | .handling _ _ (.ready _) => True
  | _ => False

/-- One call of `handleReadyConnections`, from its first index to its end. -/
structure ReadyPass (A : Addressing ρ) (parse : List Byte → Option Json) (w : Bluetooth ρ)
    (l : List (Bluetooth ρ × Act)) (w' : Bluetooth ρ) : Prop where
  begins : w.pc = .ready 0
  path : Steps.Path (act A parse) (fun w _ => InReady w.pc) w l w'
  ends : w'.pc = .running 0

/-- The tablets that were asked for a code, with what `readTransactionData` reported. -/
def reads (l : List (Bluetooth ρ × Act)) : List (Nat × TransactionType) :=
  l.flatMap fun s => reading s.1 s.2

/-- A tablet with something to read has it until it is read. -/
def StaysReady (ready : Nat → Prop) (l : List (Bluetooth ρ × Act)) : Prop :=
  ∀ s ∈ l, ∀ i p t e, s.1.pc = .polling i p → s.1.connectedTablets[i]? = some t →
    ready t.serial → s.2 = .call e → ReportsReady e.1 e.2

/-! ## What the loop does with the table -/

/-- The tablet a step is done with, and the code it was asked for, if it was. -/
def visiting (w : Bluetooth ρ) : Act → List ((Nat × Bool) × Option TransactionType)
  | .go _ _ =>
      match w.pc with
      | .polling i p =>
          match p.result?, w.connectedTablets[i]? with
          | some r, some t => [((t.serial, t.transactionState), r)]
          | _, _ => []
      | _ => []
  | _ => []

theorem reading_eq (w : Bluetooth ρ) (a : Act) :
    reading w a = (visiting w a).filterMap fun v => v.2.map (v.1.1, ·) := by
  unfold reading visiting
  cases a with
  | go launch readWholeFile =>
      dsimp only
      generalize w.pc = pc
      cases pc with
      | polling i p =>
          dsimp only
          generalize p.result? = r
          generalize w.connectedTablets[i]? = t
          cases t with
          | none =>
              cases r with
              | none => rfl
              | some r =>
                  cases r with
                  | none => rfl
                  | some c => rfl
          | some t =>
              cases r with
              | none => rfl
              | some r =>
                  cases r with
                  | none => rfl
                  | some c => rfl
      | _ => rfl
  | _ => rfl

/-- The tablets the loop has yet to come to. -/
def ahead (w : Bluetooth ρ) : List (Nat × Bool) :=
  match w.pc with
  | .ready i => w.states.drop i
  | .polling i _ => w.states.drop i
  | .started i _ =>
      if w.connectedTablets[i]?.any (·.currTrans.batmanTrans) then w.states.drop (i + 2)
      else w.states.drop (i + 1)
  | .handling _ _ (.ready i) => w.states.drop (i + 1)
  | _ => []

/-- The calls being made are for a tablet, which is asked for a code if it is free and ready. -/
def PollingOk (ready : Nat → Prop) (w : Bluetooth ρ) : Prop :=
  ∀ i p, w.pc = .polling i p → ∃ t, w.connectedTablets[i]? = some t ∧
    (t.transactionState = false → ready t.serial →
      Spec readable p () (fun _ => True) fun _ r => r.isSome = true)

theorem states_get (w : Bluetooth ρ) {i : Nat} {t : BtTabObj ρ}
    (ht : w.connectedTablets[i]? = some t) :
    w.states.drop i = (t.serial, t.transactionState) :: w.states.drop (i + 1) := by
  have hget : w.states[i]? = some (t.serial, t.transactionState) := by
    rw [states, List.getElem?_map, ht]
    rfl
  obtain ⟨hi, hget⟩ := List.getElem?_eq_some_iff.mp hget
  rw [List.drop_eq_getElem_cons hi, hget]

theorem ahead_started {i : Nat} {q : ρ} {t : BtTabObj ρ} (hpc : w.pc = .started i q)
    (ht : w.connectedTablets[i]? = some t) :
    ahead w = if t.currTrans.batmanTrans then w.states.drop (i + 2) else w.states.drop (i + 1) := by
  unfold ahead
  rw [hpc]
  dsimp only
  rw [ht, Option.any_some]

theorem Still.ahead (h : Still w w') (hpc : w'.pc = w.pc) : ahead w' = ahead w := by
  have hbat : ∀ i : Nat, w'.connectedTablets[i]?.any (·.currTrans.batmanTrans) =
      w.connectedTablets[i]?.any (·.currTrans.batmanTrans) := by
    intro i
    cases ht' : w'.connectedTablets[i]? with
    | none =>
        cases ht : w.connectedTablets[i]? with
        | none => rfl
        | some t =>
            obtain ⟨t', hget, _⟩ := h.toQuiet.get' ht
            rw [ht'] at hget
            exact absurd hget (by simp)
    | some t' =>
        obtain ⟨t, ht, hm⟩ := h.toQuiet.get ht'
        rw [ht]
        exact congrArg (fun m => m.2.2) hm
  unfold Bluetooth.ahead
  rw [hpc, h.states]
  cases w.pc with
  | started i q =>
      dsimp only
      rw [hbat]
  | handling q owner caller =>
      cases caller with
      | ready i => rfl
      | running i => rfl
  | _ => rfl

/-- The loop is done with a tablet when the calls for it are over, and at no other step. -/
theorem visiting_eq_nil (h : ∀ i p, w.pc ≠ .polling i p) (a : Act) : visiting w a = [] := by
  unfold visiting
  cases a with
  | go launch readWholeFile =>
      dsimp only
      split
      · rename_i i p hpc
        exact absurd hpc (h i p)
      · rfl
  | _ => rfl

theorem visiting_polled {i : Nat} {p : Job (Option TransactionType)} {t : BtTabObj ρ}
    {r : Option TransactionType} (hpc : w.pc = .polling i p) (hr : p.result? = some r)
    (ht : w.connectedTablets[i]? = some t) (launch : Launch) (readWholeFile : Files) :
    visiting w (.go launch readWholeFile) = [((t.serial, t.transactionState), r)] ∧
      ahead w = (t.serial, t.transactionState) :: w.states.drop (i + 1) := by
  constructor
  · unfold visiting
    rw [hpc]
    dsimp only
    rw [hr, ht]
  · unfold ahead
    rw [hpc]
    exact w.states_get ht

/-- A tablet that says goodbye takes the one behind it along, as far as the loop is concerned. -/
theorem ahead_serve (w : Bluetooth ρ) {i : Nat} {t : BtTabObj ρ} {launch : Launch}
    {readWholeFile : Files} {c : TransactionType} (ht : w.connectedTablets[i]? = some t)
    (hcalm : t.currTrans.batmanTrans = false) :
    ahead ((w.modifyAt i (Bluetooth.serve (w.pointer A i) launch readWholeFile c)).goto
      (.started i (w.pointer A i))) =
      if isGoodbye c then (w.states.drop (i + 1)).tail else w.states.drop (i + 1) := by
  have hstates : ((w.modifyAt i (Bluetooth.serve (w.pointer A i) launch readWholeFile
      c)).goto (.started i (w.pointer A i))).states = w.states :=
    Lists.map_modify_of_eq (g := fun t : BtTabObj ρ => (t.serial, t.transactionState))
      (f := Bluetooth.serve (w.pointer A i) launch readWholeFile c) (fun _ => rfl) _ _
  have hbat : ((w.modifyAt i (Bluetooth.serve (w.pointer A i) launch readWholeFile
      c)).connectedTablets[i]?).any (·.currTrans.batmanTrans) = isGoodbye c := by
    rw [modifyAt_get, if_pos rfl, ht]
    exact initReadyTransaction_batman _ _ _ _ _ _ c hcalm
  unfold ahead
  rw [hstates]
  show (if ((w.modifyAt i _).connectedTablets[i]?).any _ then _ else _) = _
  rw [hbat, List.tail_drop]

/-- What one step of the loop does with the tablets ahead. -/
theorem TableInv.ahead_step (h : TableInv A w) {ready : Nat → Prop} (hp : PollingOk ready w)
    {a : Act} (hs : TableStep A w a w') (hin : InReady w.pc)
    (hout : InReady w'.pc ∨ w'.pc = .running 0) :
    visiting w a = [] ∧ ahead w' = ahead w ∨
      ∃ x r l, visiting w a = [(x, r)] ∧ ahead w = x :: l ∧
        ahead w' = if r.any isGoodbye then l.tail else l := by
  have hnone : ∀ {pc : Pc ρ}, w.pc = pc → (∀ i p, pc ≠ .polling i p) → ahead w' = ahead w →
      visiting w a = [] ∧ ahead w' = ahead w := by
    intro pc hpc hne heq
    subst hpc
    exact ⟨visiting_eq_nil hne a, heq⟩
  have hidle : ∀ {pc : Pc ρ}, w.pc = pc → ¬ InReady pc → False := by
    intro pc hpc hno
    rw [hpc] at hin
    exact hno hin
  cases hs with
  -- these begin outside the loop
  | nobody hpc => exact (hidle hpc id).elim
  | accept hpc hw => exact (hidle hpc id).elim
  | kill hpc hw => exact (hidle hpc id).elim
  | killAll hpc hw => exact (hidle hpc id).elim
  | running hpc hq hpc' =>
      rcases hpc with ⟨i, hpc⟩ | ⟨q, owner, i, hpc⟩
      · exact (hidle hpc id).elim
      · exact (hidle hpc id).elim
  | job hw hstill hpc => exact Or.inl ⟨rfl, hstill.ahead hpc⟩
  | ask hpc ht =>
      refine Or.inl (hnone hpc (by simp) ?_)
      unfold ahead
      rw [hpc]
      rfl
  | @readyDone i _ _ hpc hend =>
      refine Or.inl (hnone hpc (by simp) ?_)
      unfold ahead
      rw [hpc]
      symm
      refine List.drop_eq_nil_of_le ?_
      rw [states, List.length_map]
      exact List.getElem?_eq_none_iff.mp hend
  | @call i p p' t e hpc hf ht =>
      refine Or.inl ⟨rfl, ?_⟩
      by_cases he : e.1 = .closesocket
      · rw [if_pos he]
        unfold ahead
        rw [hpc]
        rfl
      · rw [if_neg he]
        unfold ahead
        rw [hpc]
        rfl
  -- the calls for one tablet are over
  | @pass i p _ _ hpc hr =>
      obtain ⟨t, ht, _⟩ := hp i p hpc
      obtain ⟨hvisit, hahead⟩ := visiting_polled hpc hr ht _ _
      exact Or.inr ⟨_, none, _, hvisit, hahead, rfl⟩
  | @serve i p c t launch readWholeFile hpc hr ht =>
      obtain ⟨hvisit, hahead⟩ := visiting_polled hpc hr ht launch readWholeFile
      have hcalm := h.calm_of_pc (fun _ _ => by rw [hpc]; simp) ht
      exact Or.inr ⟨_, some c, _, hvisit, hahead, ahead_serve w ht hcalm⟩
  -- what follows was settled when the code was read
  | @goodbye i q t _ _ hpc ht hb =>
      refine Or.inl (hnone hpc (by simp) ?_)
      rw [ahead_started hpc ht, if_pos hb]
      show ((w.connectedTablets.eraseIdx i).map _).drop (i + 1) = _
      rw [← List.eraseIdx_map]
      exact drop_eraseIdx w.states i
  | @queue i q t _ _ _ hpc ht hb hq hstates hpc' =>
      refine Or.inl (hnone hpc (by simp) ?_)
      rw [ahead_started hpc ht, if_neg (by simp [hb])]
      unfold ahead
      rw [hpc']
      exact hstates
  | @result i q t _ _ _ hpc ht hb hstill hpc' =>
      refine Or.inl (hnone hpc (by simp) ?_)
      rcases hpc' with hpc' | hpc'
      · rw [hpc'] at hout
        exact absurd hout (by simp [InReady])
      · rw [ahead_started hpc ht, if_neg (by simp [hb])]
        unfold ahead
        rw [hpc', hstill.states]
  | @handleReady i q owner _ _ _ hpc hstill hpc' =>
      refine Or.inl (hnone hpc (by simp) ?_)
      rcases hpc' with hpc' | hpc' | hpc'
      · exact hstill.ahead hpc'
      · rw [hpc'] at hout
        exact absurd hout (by simp [InReady])
      · unfold ahead
        rw [hpc', hpc, hstill.states]

/-- The tablet at an index, one step on in which nothing changes but what jobs write. -/
theorem Still.get (h : Still w w') {i : Nat} {t : BtTabObj ρ}
    (ht : w.connectedTablets[i]? = some t) : ∃ t', w'.connectedTablets[i]? = some t' ∧
      t'.serial = t.serial ∧ t'.transactionState = t.transactionState := by
  have hget : w'.states[i]? = some (t.serial, t.transactionState) := by
    rw [h.states, Bluetooth.states, List.getElem?_map, ht]
    rfl
  rw [Bluetooth.states, List.getElem?_map] at hget
  obtain ⟨t', ht', heq⟩ := Option.map_eq_some_iff.mp hget
  exact ⟨t', ht', congrArg Prod.fst heq, congrArg Prod.snd heq⟩

theorem PollingOk.step {ready : Nat → Prop} (h : PollingOk ready w) {a : Act}
    (hs : TableStep A w a w')
    (hstays : ∀ i p t e, w.pc = .polling i p → w.connectedTablets[i]? = some t →
      ready t.serial → a = .call e → ReportsReady e.1 e.2) : PollingOk ready w' := by
  intro i p hpoll
  cases hs.handStep (by rw [hpoll]; rfl) with
  | job hstill hsame =>
      obtain ⟨t, ht, hspec⟩ := h i p (hsame.symm.trans hpoll)
      obtain ⟨t', ht', hserial, hstate⟩ := hstill.get ht
      exact ⟨t', ht', by rw [hserial, hstate]; exact hspec⟩
  | @ask j t _ _ ht =>
      cases hpoll
      refine ⟨t, ht, fun hfree _ => ?_⟩
      rw [hfree]
      exact serveTablet_readable
  | @call j p₀ p' t e _ hpc hf ht hpc' htab =>
      obtain ⟨u, hu, hspec⟩ := h j p₀ hpc
      rw [ht] at hu
      cases hu
      rw [hpc'] at hpoll
      cases hpoll
      refine ⟨t, htab ▸ ht, fun hfree hready => ?_⟩
      exact (hspec hfree hready).feed hf (hstays i p₀ t e hpc ht hready rfl)
  | serve _ _ _ => cases hpoll

/-- A free tablet with something to read that the loop comes to is asked for its code. -/
theorem PollingOk.visiting {ready : Nat → Prop} (h : PollingOk ready w) {a : Act}
    {v : (Nat × Bool) × Option TransactionType} (hv : v ∈ visiting w a) (hfree : v.1.2 = false)
    (hready : ready v.1.1) : v.2.isSome = true := by
  unfold Bluetooth.visiting at hv
  split at hv
  · split at hv
    · rename_i i p hpc
      split at hv
      · rename_i r t hr ht
        rw [List.mem_singleton.mp hv] at hfree hready ⊢
        obtain ⟨u, hu, hspec⟩ := h i p hpc
        rw [ht] at hu
        cases hu
        have hp : p = .ret r := Prog.result?_eq_some.mp hr
        subst hp
        exact (hspec hfree hready).post_of
      · exact absurd hv List.not_mem_nil
    · exact absurd hv List.not_mem_nil
  · exact absurd hv List.not_mem_nil

/-- The tablets a pass is done with, one after the other. -/
def visits (l : List (Bluetooth ρ × Act)) : List ((Nat × Bool) × Option TransactionType) :=
  l.flatMap fun s => visiting s.1 s.2

/-- **The pass is an index loop that erases where it stands.** -/
theorem walk_of_path {ready : Nat → Prop} {l : List (Bluetooth ρ × Act)} (h : TableInv A w)
    (hp : PollingOk ready w)
    (hpath : Steps.Path (act A parse) (fun w _ => InReady w.pc) w l w')
    (hends : w'.pc = .running 0) (hstays : StaysReady ready l) :
    (∃ rest, Walk (fun r : Option TransactionType => r.any isGoodbye = true) (ahead w) (visits l)
      rest) ∧ ∀ v ∈ visits l, v.1.2 = false → ready v.1.1 → v.2.isSome = true := by
  induction hpath with
  | @nil w =>
      refine ⟨⟨[], ?_⟩, fun v hv => absurd hv List.not_mem_nil⟩
      have hnil : ahead w = [] := by
        unfold ahead
        rw [hends]
      rw [hnil]
      exact .done
  | @cons w w₁ w' a l hin hact hpath ih =>
      have hs := h.tableStep hact
      have hstep : ∀ i p t e, w.pc = .polling i p → w.connectedTablets[i]? = some t →
          ready t.serial → a = .call e → ReportsReady e.1 e.2 :=
        hstays (w, a) List.mem_cons_self
      obtain ⟨⟨rest, hwalk⟩, hsome⟩ := ih (h.step hs) (hp.step hs hstep) hends
        fun s hs' => hstays s (List.mem_cons_of_mem _ hs')
      have hout : InReady w₁.pc ∨ w₁.pc = .running 0 := by
        cases hpath with
        | nil => exact Or.inr hends
        | cons hin' _ _ => exact Or.inl hin'
      refine ⟨?_, fun v hv => ?_⟩
      · unfold visits at hwalk ⊢
        rw [List.flatMap_cons]
        rcases h.ahead_step hp hs hin hout with ⟨hv, hahead⟩ | ⟨x, r, xs, hv, hahead, hahead'⟩
        · rw [hv, List.nil_append, ← hahead]
          exact ⟨rest, hwalk⟩
        · rw [hv, hahead]
          rw [hahead'] at hwalk
          by_cases hbye : r.any isGoodbye = true
          · rw [if_pos hbye] at hwalk
            exact ⟨_, .erase hbye hwalk⟩
          · rw [if_neg hbye] at hwalk
            exact ⟨_, .keep hbye hwalk⟩
      · unfold visits at hv
        rw [List.flatMap_cons, List.mem_append] at hv
        rcases hv with hv | hv
        · exact hp.visiting hv
        · exact hsome v hv

theorem reads_eq (l : List (Bluetooth ρ × Act)) :
    reads l = (visits l).filterMap fun v => v.2.map (v.1.1, ·) := by
  unfold reads visits
  induction l with
  | nil => rfl
  | cons s l ih =>
      rw [List.flatMap_cons, List.flatMap_cons, List.filterMap_append, ih, reading_eq]

theorem mem_reads {l : List (Bluetooth ρ × Act)} {n : Nat} {c : TransactionType} :
    (n, c) ∈ reads l ↔ ∃ b, ((n, b), some c) ∈ visits l := by
  rw [reads_eq, List.mem_filterMap]
  constructor
  · intro ⟨⟨⟨m, b⟩, r⟩, hv, heq⟩
    obtain ⟨c', hc, heq⟩ := Option.map_eq_some_iff.mp heq
    cases heq
    dsimp only at hc
    subst hc
    exact ⟨b, hv⟩
  · intro ⟨b, hv⟩
    exact ⟨_, hv, rfl⟩

theorem states_nodup (h : TableInv A w) : w.states.Nodup := by
  have hserials : w.states.map Prod.fst = w.serials := by
    rw [states, List.map_map]
    rfl
  exact List.Nodup.of_map Prod.fst (hserials ▸ h.nodup)

theorem mem_states {x : Nat × Bool} :
    x ∈ w.states ↔ ∃ t ∈ w.connectedTablets, x = (t.serial, t.transactionState) := by
  rw [states, List.mem_map]
  exact exists_congr fun t => and_congr_right fun _ => eq_comm

theorem getElem?_states {i : Nat} {x : Nat × Bool} : w.states[i]? = some x ↔
    ∃ t, w.connectedTablets[i]? = some t ∧ (t.serial, t.transactionState) = x := by
  rw [states, List.getElem?_map, Option.map_eq_some_iff]

/-- Tablets are told apart by their serial numbers. -/
theorem eq_of_mem_states (h : TableInv A w) {i : Nat} {t : BtTabObj ρ} {b : Bool}
    (ht : w.connectedTablets[i]? = some t) (hb : (t.serial, b) ∈ w.states) :
    b = t.transactionState := by
  obtain ⟨u, hu, heq⟩ := mem_states.mp hb
  obtain ⟨j, hj⟩ := List.mem_iff_getElem?.mp hu
  obtain ⟨_, rfl⟩ := eq_of_serial h.nodup ht hj (congrArg Prod.fst heq)
  exact congrArg Prod.snd heq

theorem reads_sublist (l : List (Bluetooth ρ × Act)) :
    ((reads l).map Prod.fst).Sublist (((visits l).map Prod.fst).map Prod.fst) := by
  rw [reads_eq, List.map_map]
  generalize visits l = vs
  induction vs with
  | nil => exact List.Sublist.refl _
  | cons v vs ih =>
      obtain ⟨x, r⟩ := v
      cases r with
      | none => exact ih.cons _
      | some c => exact ih.cons_cons _

section
variable {ready : Nat → Prop} {l : List (Bluetooth ρ × Act)}

/-- The walk of a whole pass goes through all the tablets. -/
theorem ReadyPass.walk (h : TableInv A w) (hpass : ReadyPass A parse w l w')
    (hstays : StaysReady ready l) :
    (∃ rest, Walk (fun r : Option TransactionType => r.any isGoodbye = true) w.states (visits l)
      rest) ∧ ∀ v ∈ visits l, v.1.2 = false → ready v.1.1 → v.2.isSome = true := by
  have hp : PollingOk ready w := by
    intro i p hpoll
    rw [hpass.begins] at hpoll
    cases hpoll
  have hahead : ahead w = w.states := by
    unfold ahead
    rw [hpass.begins]
    rfl
  rw [← hahead]
  exact walk_of_path h hp hpass.path hpass.ends hstays

/-- A tablet is asked for its code at most once. -/
theorem ReadyPass.count_reads (h : TableInv A w) (hpass : ReadyPass A parse w l w')
    (hstays : StaysReady ready l) (n : Nat) :
    ((reads l).map Prod.fst).count n = 1 ↔ ∃ c, (n, c) ∈ reads l := by
  obtain ⟨⟨rest, hwalk⟩, _⟩ := hpass.walk h hstays
  have hserials : (w.states.map Prod.fst).Nodup := by
    rw [states, List.map_map]
    exact h.nodup
  have hvisited := hwalk.visited_sublist.map Prod.fst
  have honce : ((reads l).map Prod.fst).Nodup :=
    hserials.sublist ((reads_sublist l).trans hvisited)
  constructor
  · intro hone
    have hmem : n ∈ (reads l).map Prod.fst := List.count_pos_iff.mp (by omega)
    obtain ⟨⟨m, c⟩, hm, rfl⟩ := List.mem_map.mp hmem
    exact ⟨c, hm⟩
  · intro ⟨c, hm⟩
    exact List.count_eq_one_of_mem honce (List.mem_map_of_mem hm)

/-- To be asked is to be visited by the loop, for a free tablet with something to read. -/
theorem ReadyPass.asks_iff (h : TableInv A w) (hpass : ReadyPass A parse w l w')
    (hstays : StaysReady ready l) :
    (∀ t ∈ w.connectedTablets, t.transactionState = false → ready t.serial →
        ((reads l).map Prod.fst).count t.serial = 1) ↔
      ∀ x ∈ w.states, (x.2 = false ∧ ready x.1) → x ∈ (visits l).map Prod.fst := by
  obtain ⟨⟨rest, hwalk⟩, hsome⟩ := hpass.walk h hstays
  have hcount := hpass.count_reads h hstays
  constructor
  · intro hall x hx ⟨hfree, hready⟩
    obtain ⟨t, ht, rfl⟩ := mem_states.mp hx
    obtain ⟨c, hc⟩ := (hcount _).mp (hall t ht hfree hready)
    obtain ⟨b, hv⟩ := mem_reads.mp hc
    obtain ⟨i, hi⟩ := List.mem_iff_getElem?.mp ht
    rw [← eq_of_mem_states h hi (hwalk.mem_of_visited hv)]
    exact List.mem_map_of_mem hv
  · intro hall t ht hfree hready
    have hx := hall _ (mem_states.mpr ⟨t, ht, rfl⟩) ⟨hfree, hready⟩
    obtain ⟨⟨x, r⟩, hv, heq⟩ := List.mem_map.mp hx
    dsimp only at heq
    subst heq
    obtain ⟨c, hc⟩ := Option.isSome_iff_exists.mp (hsome _ hv hfree hready)
    dsimp only at hc
    subst hc
    exact (hcount _).mpr ⟨c, mem_reads.mpr ⟨_, hv⟩⟩

/--
**A pass asks every free tablet with something to read for its code, exactly once**,
if and only if none of them directly follows one that says goodbye.
-/
theorem ReadyPass.reads_iff (h : TableInv A w) (hpass : ReadyPass A parse w l w')
    (hstays : StaysReady ready l) :
    (∀ t ∈ w.connectedTablets, t.transactionState = false → ready t.serial →
        ((reads l).map Prod.fst).count t.serial = 1) ↔
      ∀ i t u c, w.connectedTablets[i]? = some t → w.connectedTablets[i + 1]? = some u →
        (t.serial, c) ∈ reads l → isGoodbye c = true →
        ¬ (u.transactionState = false ∧ ready u.serial) := by
  obtain ⟨⟨rest, hwalk⟩, _⟩ := hpass.walk h hstays
  rw [hpass.asks_iff h hstays, hwalk.all_visited_iff (states_nodup h)]
  constructor
  · intro hnone i t u c ht hu hc hbye
    obtain ⟨b, hv⟩ := mem_reads.mp hc
    have hb := eq_of_mem_states h ht (hwalk.mem_of_visited hv)
    refine hnone _ _ (u.serial, u.transactionState) hv hbye ⟨i, ?_, ?_⟩
    · exact getElem?_states.mpr ⟨t, ht, by rw [hb]⟩
    · exact getElem?_states.mpr ⟨u, hu, rfl⟩
  · intro hnone ⟨n, b⟩ r x hv hbye ⟨i, ha, hx⟩
    obtain ⟨t, ht, heq⟩ := getElem?_states.mp ha
    obtain ⟨u, hu, rfl⟩ := getElem?_states.mp hx
    cases r with
    | none => exact absurd hbye Bool.false_ne_true
    | some c =>
        cases heq
        exact hnone i t u c ht hu (mem_reads.mpr ⟨_, hv⟩) hbye

end

end Bluetooth

end ScoutComputer
