import ScoutComputer.Bluetooth.PassProof

/-!
# Which transactions one pass of `handleRunningTransactions` handles

The same kind of loop again, over the queue. Jobs finish in between, so a transaction may
become ready while the loop is under way; one that is ready stays so until it is handled,
even when a stray pointer makes another entry of the queue lead to the same tablet.

Which entries the loop asks is a matter of the queue alone: they are the visited ones of a
`Walk` (`queueWalk_of_path`), so the library says which are skipped. That a ready one is
found ready is a matter of the tablets: `Settled` holds of one when its transaction is
ready, every step of the pass keeps it, and a loop that asks a settled tablet erases its
entry (`found_of_settled`). The claim about the pass puts the two together.
-/

namespace ScoutComputer.Bluetooth

open Interact EraseLoop

variable {ρ : Type} {A : Addressing ρ} {w w' : Bluetooth ρ} {parse : List Byte → Option Json}

/-- Inside `handleRunningTransactions`. -/
def InRunning : Pc ρ → Prop
  | .running _ | .handling _ _ (.running _) => True
  | _ => False

/-- One call of `handleRunningTransactions`, from its first index to its end. -/
structure RunningPass (A : Addressing ρ) (parse : List Byte → Option Json) (w : Bluetooth ρ)
    (l : List (Bluetooth ρ × Act)) (w' : Bluetooth ρ) : Prop where
  begins : w.pc = .running 0
  path : Steps.Path (act A parse) (fun w _ => InRunning w.pc) w l w'
  ends : w'.pc = .idle

/-- What `isReady` says of a transaction. -/
def isReady? (A : Addressing ρ) (w : Bluetooth ρ) (e : QueueEntry ρ) : Option Bool :=
  (w.deref A e.trans).bind (·.currTrans.isReady)

/-- The transaction a step asks whether it is ready, with the answer. -/
def asking (A : Addressing ρ) (w : Bluetooth ρ) : Act → List (QueueEntry ρ × Bool)
  | .go _ _ =>
      match w.pc with
      | .running i =>
          match w.runningTransactions[i]? with
          | some e =>
              match w.isReady? A e with
              | some b => [(e, b)]
              | none => []
          | none => []
      | _ => []
  | _ => []

/-- The answers of `isReady` in a pass, one for each index of the loop. -/
def answers (A : Addressing ρ) (l : List (Bluetooth ρ × Act)) : List Bool :=
  (l.flatMap fun s => asking A s.1 s.2).map Prod.snd

/-! ## The steps of the pass -/

theorem running_act {a : Act} (hin : InRunning w.pc) (h : w.act A parse a = some w') :
    (∃ i e, a = .job i e ∧ w.jobReturned A i e = some w') ∨
      ∃ launch readWholeFile, a = .go launch readWholeFile ∧
        ((∃ i, w.pc = .running i ∧ w' = w.checkRunning A i) ∨
          ∃ q owner i, w.pc = .handling q owner (.running i) ∧
            w.handle A parse q owner (.running i) = some w') := by
  have hno : ∀ {pc : Pc ρ}, w.pc = pc → ¬ InRunning pc → False := by
    intro pc hpc hno
    rw [hpc] at hin
    exact hno hin
  unfold act at h
  cases a with
  | job i e =>
      dsimp only at h
      split at h
      · exact absurd h (by simp)
      · exact Or.inl ⟨i, e, rfl, h⟩
  | go launch readWholeFile =>
      refine Or.inr ⟨launch, readWholeFile, rfl, ?_⟩
      dsimp only at h
      unfold Bluetooth.go at h
      cases hpc : w.pc with
      | running i =>
          rw [hpc] at h
          exact Or.inl ⟨i, rfl, (Option.some.inj h).symm⟩
      | handling q owner caller =>
          cases caller with
          | running i =>
              rw [hpc] at h
              exact Or.inr ⟨q, owner, i, rfl, h⟩
          | ready i => exact (hno hpc id).elim
      | idle => exact (hno hpc id).elim
      | ready i => exact (hno hpc id).elim
      | polling i p => exact (hno hpc id).elim
      | started i q => exact (hno hpc id).elim
      | crashed => exact (hno hpc id).elim
  -- the rest is for the main thread outside the loop
  | call e =>
      dsimp only at h
      unfold callReturned at h
      split at h
      · rename_i i p hpc
        exact (hno hpc id).elim
      · exact absurd h (by simp)
  | updateAllBt peer grow =>
      dsimp only at h
      split at h
      · rename_i hpc
        exact (hno hpc id).elim
      · exact absurd h (by simp)
  | killSocket deleteSock =>
      dsimp only at h
      split at h
      · rename_i hpc
        exact (hno hpc id).elim
      · exact absurd h (by simp)
  | killAllSockets =>
      dsimp only at h
      split at h
      · rename_i hpc
        exact (hno hpc id).elim
      · exact absurd h (by simp)

/-- What `checkRunning` comes to at an entry of the queue. -/
theorem checkRunning_eq {i : Nat} {e : QueueEntry ρ} (he : w.runningTransactions[i]? = some e) :
    (w.checkRunning A i).runningTransactions = w.runningTransactions ∧
      (w.checkRunning A i).pc =
        match w.isReady? A e with
        | none => .crashed
        | some true => .handling e.trans e.owner (.running i)
        | some false => .running (i + 1) := by
  unfold checkRunning isReady?
  rw [he]
  dsimp only
  cases w.deref A e.trans with
  | none => exact ⟨rfl, rfl⟩
  | some t =>
      dsimp only [Option.bind_some]
      cases t.currTrans.isReady with
      | none => exact ⟨rfl, rfl⟩
      | some b =>
          cases b with
          | false => exact ⟨rfl, rfl⟩
          | true => exact ⟨rfl, rfl⟩

/-- The entries the loop has yet to come to, and those it has left behind. -/
def QueueWalk (w : Bluetooth ρ) (vs : List (QueueEntry ρ × Bool)) (queue : List (QueueEntry ρ)) :
    Prop :=
  match w.pc with
  | .running i => ∃ rest, Walk (· = true) (w.runningTransactions.drop i) vs rest ∧
      queue = w.runningTransactions.take i ++ rest
  | .handling _ _ (.running i) => ∃ rest, Walk (· = true) (w.runningTransactions.drop (i + 2)) vs rest ∧
      queue = (w.runningTransactions.eraseIdx i).take (i + 1) ++ rest
  | .idle => vs = [] ∧ queue = w.runningTransactions
  | _ => False

theorem QueueWalk.same {vs : List (QueueEntry ρ × Bool)} {queue : List (QueueEntry ρ)}
    (hpc : w'.pc = w.pc) (hqueue : w'.runningTransactions = w.runningTransactions)
    (h : QueueWalk w' vs queue) : QueueWalk w vs queue := by
  unfold QueueWalk at h ⊢
  rw [hpc, hqueue] at h
  exact h

theorem QueueWalk.check {i : Nat} (hpc : w.pc = .running i) {launch : Launch}
    {readWholeFile : Files} {vs : List (QueueEntry ρ × Bool)} {queue : List (QueueEntry ρ)}
    (h : QueueWalk (w.checkRunning A i) vs queue) :
    QueueWalk w (asking A w (.go launch readWholeFile) ++ vs) queue := by
  cases he : w.runningTransactions[i]? with
  | none =>
      have hask : asking A w (.go launch readWholeFile) = [] := by
        unfold asking
        rw [hpc]
        dsimp only
        rw [he]
      have hidle : w.checkRunning A i = w.goto .idle := by
        unfold checkRunning
        rw [he]
      rw [hidle] at h
      obtain ⟨rfl, rfl⟩ := h
      rw [hask]
      unfold QueueWalk
      rw [hpc]
      have hlen := List.getElem?_eq_none_iff.mp he
      refine ⟨[], ?_, ?_⟩
      · rw [List.drop_eq_nil_of_le hlen]
        exact .done
      · rw [List.append_nil, List.take_of_length_le hlen]
        rfl
  | some e =>
      obtain ⟨hqueue, hpc'⟩ := checkRunning_eq (A := A) he
      obtain ⟨hi, hget⟩ := List.getElem?_eq_some_iff.mp he
      have hdrop : w.runningTransactions.drop i = e :: w.runningTransactions.drop (i + 1) := by
        rw [List.drop_eq_getElem_cons hi, hget]
      have hask : asking A w (.go launch readWholeFile) =
          match w.isReady? A e with
          | some b => [(e, b)]
          | none => [] := by
        unfold asking
        rw [hpc]
        dsimp only
        rw [he]
      unfold QueueWalk at h
      rw [hpc', hqueue] at h
      rw [hask]
      unfold QueueWalk
      rw [hpc]
      dsimp only
      rw [hdrop]
      cases hready : w.isReady? A e with
      | none =>
          rw [hready] at h
          exact h.elim
      | some b =>
          rw [hready] at h
          cases b with
          | true =>
              obtain ⟨rest, hwalk, rfl⟩ := h
              rw [← List.tail_drop] at hwalk
              refine ⟨_, .erase rfl hwalk, ?_⟩
              rw [take_eraseIdx hi, List.append_assoc]
          | false =>
              obtain ⟨rest, hwalk, rfl⟩ := h
              refine ⟨_, .keep Bool.false_ne_true hwalk, ?_⟩
              rw [List.take_add_one, he]
              exact List.append_assoc _ _ _

/-- **The pass is an index loop that erases where it stands.** -/
theorem queueWalk_of_path {l : List (Bluetooth ρ × Act)}
    (hpath : Steps.Path (act A parse) (fun w _ => InRunning w.pc) w l w') (hends : w'.pc = .idle) :
    QueueWalk w (l.flatMap fun s => asking A s.1 s.2) w'.runningTransactions := by
  -- From the end backwards: a step puts the entry it asks in front of the walk that follows.
  induction hpath with
  | @nil w =>
      unfold QueueWalk
      rw [hends]
      exact ⟨rfl, rfl⟩
  | @cons w w₁ w' a l hin hact hpath ih =>
      have ih := ih hends
      rw [List.flatMap_cons]
      rcases running_act hin hact with ⟨i, e, rfl, hjob⟩ | ⟨launch, readWholeFile, rfl, hgo⟩
      · obtain ⟨_, hpc, hqueue⟩ := Still.job hjob
        exact ih.same hpc hqueue
      · rcases hgo with ⟨i, hpc, rfl⟩ | ⟨q, owner, i, hpc, hhandle⟩
        · exact ih.check hpc
        · have hask : asking A w (.go launch readWholeFile) = [] := by
            unfold asking
            rw [hpc]
          dsimp only
          rw [hask, List.nil_append]
          rcases handle_eq_some hhandle with ⟨_, hqueue, hpc'⟩ | ⟨j, hj, _, hpc', hqueue⟩
          · rcases hpc' with hpc' | hpc' | ⟨j, hj, _⟩
            · exact ih.same hpc' hqueue
            · unfold QueueWalk at ih
              rw [hpc'] at ih
              exact ih.elim
            · exact Caller.noConfusion hj
          · -- Erased at `i`, and `i++` passes over the entry that has moved up.
            cases hj
            unfold QueueWalk at ih ⊢
            rw [hpc', hqueue] at ih
            dsimp only at ih
            rw [drop_eraseIdx] at ih
            rw [hpc]
            exact ih

/-! ## A transaction that is ready stays so -/

/-- The transaction of the tablet at index `j` is not one the loop would leave in the queue. -/
def Settled (A : Addressing ρ) (w : Bluetooth ρ) (j : Nat) : Prop :=
  ∀ t, w.connectedTablets[j]? = some t → t.currTrans.isReady ≠ some false ∨
    t.currTrans.needsGet = true ∧
      -- its job runs while `get()` waits for it
      ∃ q owner i, w.pc = .handling q owner (.running i) ∧ w.index A q = some j

/-- Nothing changes for the loop between these two. -/
def Alike (trans trans' : TabTransaction ρ) : Prop :=
  trans'.needsGet = trans.needsGet ∧
    (trans.isReady = some false ∨ trans'.isReady = trans.isReady)

theorem Settled.of_alike {j : Nat} (h : Settled A w j) (hpc : w'.pc = w.pc)
    (hindex : w'.index A = w.index A)
    (halike : ∀ t', w'.connectedTablets[j]? = some t' →
      ∃ t, w.connectedTablets[j]? = some t ∧ Alike t.currTrans t'.currTrans) : Settled A w' j := by
  intro t' ht'
  obtain ⟨t, ht, hneeds, hready⟩ := halike t' ht'
  rw [hpc, hindex, hneeds]
  refine (h t ht).imp_left fun hne => ?_
  rcases hready with hfalse | hsame
  · exact absurd hfalse hne
  · rw [hsame]
    exact hne

theorem modifyAt_cases {i j : Nat} {f : BtTabObj ρ → BtTabObj ρ} {t' : BtTabObj ρ}
    (h : (w.modifyAt i f).connectedTablets[j]? = some t') :
    ∃ t, w.connectedTablets[j]? = some t ∧ (i = j ∧ t' = f t ∨ i ≠ j ∧ t' = t) := by
  rw [modifyAt_get] at h
  by_cases hij : i = j
  · rw [if_pos hij] at h
    obtain ⟨t, ht, heq⟩ := Option.map_eq_some_iff.mp h
    exact ⟨t, ht, Or.inl ⟨hij, heq.symm⟩⟩
  · rw [if_neg hij] at h
    exact ⟨t', h, Or.inr ⟨hij, rfl⟩⟩

/-- Changing what a pointer leads to changes a tablet that way or not at all. -/
theorem modify_cases {p : ρ} {j : Nat} {f : BtTabObj ρ → BtTabObj ρ} {t' : BtTabObj ρ}
    (h : (w.modify A p f).connectedTablets[j]? = some t') :
    ∃ t, w.connectedTablets[j]? = some t ∧ (t' = f t ∨ t' = t) := by
  unfold Bluetooth.modify at h
  cases hi : w.index A p with
  | none =>
      rw [hi] at h
      exact ⟨t', h, Or.inr rfl⟩
  | some i =>
      rw [hi] at h
      obtain ⟨t, ht, heq⟩ := modifyAt_cases h
      exact ⟨t, ht, heq.imp And.right And.right⟩

theorem Settled.job {i j : Nat} {e : Event winsock} (h : Settled A w j)
    (hw : w.jobReturned A i e = some w') : Settled A w' j := by
  obtain ⟨hstill, hpc, _⟩ := Still.job hw
  refine h.of_alike hpc hstill.toQuiet.index fun t' ht' => ?_
  obtain ⟨t, s, prog, ht, hs, hst, hp, hw'⟩ := jobReturned_eq_some hw
  have hrunning : t.currTrans.isReady = some false := by
    unfold TabTransaction.isReady SharedState.isReady
    rw [hs, Option.map_some, hst, result?_of_feed hp]
    rfl
  have hadvance : ∀ u', (w.modifyAt i (advance s prog)).connectedTablets[j]? = some u' →
      ∃ u, w.connectedTablets[j]? = some u ∧ Alike u.currTrans u'.currTrans := by
    intro u' hu'
    obtain ⟨u, hu, heq⟩ := modifyAt_cases hu'
    refine ⟨u, hu, ?_⟩
    rcases heq with ⟨rfl, rfl⟩ | ⟨_, rfl⟩
    · rw [ht] at hu
      cases hu
      exact ⟨rfl, Or.inl hrunning⟩
    · exact ⟨rfl, Or.inr rfl⟩
  rcases hw' with ⟨b, _, rfl⟩ | rfl
  · obtain ⟨u', hu', heq⟩ := modify_cases (A := A) (p := s.success) (f := setFlag b) ht'
    obtain ⟨u, hu, halike⟩ := hadvance u' hu'
    refine ⟨u, hu, ?_⟩
    rcases heq with rfl | rfl
    · exact halike
    · exact halike
  · exact hadvance t' ht'

theorem Settled.check {i j : Nat} (h : Settled A w j) (hpc : w.pc = .running i) :
    Settled A (w.checkRunning A i) j := by
  have htab : (w.checkRunning A i).connectedTablets = w.connectedTablets := by
    unfold checkRunning
    split
    · rfl
    · split
      · rfl
      · split
        · rfl
        · rfl
        · rfl
  intro t ht
  rw [htab] at ht
  rcases h t ht with hne | ⟨_, q, owner, k, hpc', _⟩
  · exact Or.inl hne
  · rw [hpc] at hpc'
    exact absurd hpc' (by simp)

/-- A name and a transaction state leave the transactions as they are. -/
theorem currTrans_named (parent : ρ) (owner i : Nat) (n : Option (List Byte)) {j : Nat}
    {t' : BtTabObj ρ}
    (h : (((w.name A parent owner n).erase i).modify A parent
      (setTransactionState false)).connectedTablets[j]? = some t') :
    ∃ t, w.connectedTablets[j]? = some t ∧ t'.currTrans = t.currTrans := by
  obtain ⟨u, hu, heq⟩ := modify_cases (A := A) h
  have hcurr : t'.currTrans = u.currTrans := by
    rcases heq with rfl | rfl
    · rfl
    · rfl
  replace hu : (w.name A parent owner n).connectedTablets[j]? = some u := hu
  cases n with
  | none => exact ⟨u, hu, hcurr⟩
  | some n =>
      obtain ⟨t, ht, heq⟩ := modify_cases (A := A) (p := parent) (f := setScoutingName n) hu
      refine ⟨t, ht, hcurr.trans ?_⟩
      rcases heq with rfl | rfl
      · rfl
      · rfl

theorem Settled.handle {i j : Nat} {q : ρ} {owner : Nat} (h : Settled A w j)
    (hpc : w.pc = .handling q owner (.running i))
    (hw : w.handle A parse q owner (.running i) = some w') (hin : w'.pc ≠ .crashed) :
    Settled A w' j := by
  rcases handle_cases hw with ⟨_, rfl⟩ | ⟨t, w₁, hderef, hconsult, hcase⟩
  · exact absurd rfl hin
  obtain ⟨k, hk, ht⟩ := deref_eq_some.mp hderef
  -- `get()` is only ever about the tablet at index `k`
  have hother : k ≠ j → ∀ u, w.connectedTablets[j]? = some u →
      u.currTrans.isReady ≠ some false := by
    intro hkj u hu
    rcases h u hu with hne | ⟨_, q', owner', i', hpc', hq'⟩
    · exact hne
    · rw [hpc] at hpc'
      cases hpc'
      rw [hk] at hq'
      exact absurd (Option.some.inj hq') hkj
  have hnoted : w₁.connectedTablets = w.connectedTablets ∧ w₁.index A = w.index A ∧
      w₁.pc = w.pc := by
    rcases hconsult with rfl | rfl
    · exact ⟨rfl, rfl, rfl⟩
    · exact ⟨rfl, rfl, rfl⟩
  obtain ⟨htab, hindex, hpc₁⟩ := hnoted
  have hk₁ : w₁.index A q = some k := by rw [hindex, hk]
  rcases hcase with ⟨hwait, _, rfl⟩ | rfl | ⟨r, hr, rfl⟩
  · rw [modify_of_index hk₁]
    intro t' ht'
    obtain ⟨u, hu, hcase⟩ := modifyAt_cases ht'
    rw [htab] at hu
    rcases hcase with ⟨rfl, rfl⟩ | ⟨hkj, rfl⟩
    · rw [ht] at hu
      cases hu
      have hneeds : t.currTrans.needsGet = true := needsGet_of_waiting hwait
      refine Or.inr ⟨hneeds, q, owner, i, hpc₁.trans hpc, ?_⟩
      have hset := (still_modifyAt (f := start) (htab ▸ ht : w₁.connectedTablets[k]? = some t) rfl
        rfl).toQuiet.index (A := A)
      rw [hset]
      exact hk₁
    · exact Or.inl (hother hkj _ hu)
  · exact absurd rfl hin
  · unfold handled at hin ⊢
    dsimp only at hin ⊢
    split at hin
    · exact absurd rfl hin
    · rename_i parent hparent
      intro t' ht'
      obtain ⟨u, hu, hcurr⟩ := currTrans_named (A := A) parent owner i r.name ht'
      rw [hcurr]
      rw [modify_of_index hk₁] at hu
      obtain ⟨v, hv, hcase⟩ := modifyAt_cases (w := w₁) hu
      rw [htab] at hv
      left
      rcases hcase with ⟨rfl, rfl⟩ | ⟨hkj, rfl⟩
      · rw [ht] at hv
        cases hv
        show r.trans.isReady ≠ some false
        rcases handleTransResult_ok hr with ⟨hneeds, hsame⟩ | ⟨_, hgone⟩
        · rw [hsame]
          rcases h t ht with hne | ⟨hneeds', _⟩
          · exact hne
          · rw [hneeds] at hneeds'
            exact Bool.noConfusion hneeds'
        · rw [hgone]
          simp [TabTransaction.isReady]
      · exact hother hkj _ hv

/-- A pass that ends has not crashed. -/
theorem path_not_crashed {l : List (Bluetooth ρ × Act)}
    (hpath : Steps.Path (act A parse) (fun w _ => InRunning w.pc) w l w') (hends : w'.pc = .idle) :
    w.pc ≠ .crashed := by
  intro hcrash
  cases hpath with
  | nil =>
      rw [hends] at hcrash
      exact absurd hcrash (by simp)
  | cons hin _ _ =>
      rw [hcrash] at hin
      exact hin

/-- The loop finds ready what was ready when it began. -/
theorem found_of_settled {l : List (Bluetooth ρ × Act)} {e : QueueEntry ρ} {j : Nat} {b : Bool}
    (hpath : Steps.Path (act A parse) (fun w _ => InRunning w.pc) w l w') (hends : w'.pc = .idle)
    (hj : w.index A e.trans = some j) (hsettled : Settled A w j)
    (hm : (e, b) ∈ l.flatMap fun s => asking A s.1 s.2) : b = true := by
  induction hpath with
  | nil => exact absurd hm List.not_mem_nil
  | @cons w w₁ w' a l hin hact hpath ih =>
      rw [List.flatMap_cons] at hm
      rcases List.mem_append.mp hm with hm | hm
      · -- This is the step that asks, and the tablet is settled before it.
        unfold asking at hm
        split at hm
        · split at hm
          · rename_i i hpc
            split at hm
            · split at hm
              · rename_i b' hready
                cases List.mem_singleton.mp hm
                obtain ⟨t, hderef, hready⟩ := Option.bind_eq_some_iff.mp hready
                obtain ⟨k, hk, ht⟩ := deref_eq_some.mp hderef
                rw [hj] at hk
                cases hk
                cases b with
                | true => rfl
                | false =>
                    rcases hsettled t ht with hne | ⟨_, q, owner, k, hpc', _⟩
                    · exact absurd hready hne
                    · rw [hpc] at hpc'
                      exact absurd hpc' (by simp)
              · exact absurd hm List.not_mem_nil
            · exact absurd hm List.not_mem_nil
          · exact absurd hm List.not_mem_nil
        · exact absurd hm List.not_mem_nil
      · have hgoes := path_not_crashed hpath hends
        rcases running_act hin hact with ⟨i, ev, _, hjob⟩ | ⟨launch, files, _, hgo⟩
        · have hindex := (Still.job hjob).1.toQuiet.index (A := A)
          exact ih hends (hindex ▸ hj) (hsettled.job hjob) hm
        · rcases hgo with ⟨i, hpc, rfl⟩ | ⟨q, owner, i, hpc, hhandle⟩
          · have hindex := (still_checkRunning (A := A) w i).toQuiet.index (A := A)
            exact ih hends (hindex ▸ hj) (hsettled.check hpc) hm
          · have hindex : w₁.index A = w.index A := by
              rcases handle_eq_some hhandle with ⟨hstill, _⟩ | ⟨_, _, hquiet, _⟩
              · exact hstill.toQuiet.index
              · exact hquiet.index
            exact ih hends (hindex ▸ hj) (hsettled.handle hpc hhandle hgoes) hm

theorem settled_of_ready {e : QueueEntry ρ} (h : w.isReady? A e = some true) :
    ∃ j, w.index A e.trans = some j ∧ Settled A w j := by
  obtain ⟨t, hderef, hready⟩ := Option.bind_eq_some_iff.mp h
  obtain ⟨j, hj, ht⟩ := deref_eq_some.mp hderef
  refine ⟨j, hj, fun u hu => Or.inl ?_⟩
  rw [ht] at hu
  rw [← Option.some.inj hu, hready]
  simp

/-! ## What is erased has been handled -/

/-- Whose results were handled, and submitted to the database. -/
def submissions (w : Bluetooth ρ) : List Nat :=
  w.log.filterMap fun e =>
    match e with
    | .submitted owner _ => some owner
    | _ => none

theorem submissions_modify (w : Bluetooth ρ) (p : ρ) (f : BtTabObj ρ → BtTabObj ρ) :
    (w.modify A p f).submissions = w.submissions := by
  unfold submissions
  rw [(modify_queue w p f).2]

theorem submissions_goto (w : Bluetooth ρ) (pc : Pc ρ) :
    (w.goto pc).submissions = w.submissions := rfl

theorem submissions_note (w : Bluetooth ρ) {e : Effect} (he : ∀ owner sts, e ≠ .submitted owner sts) :
    (w.note e).submissions = w.submissions := by
  unfold submissions note
  rw [List.filterMap_append]
  cases e with
  | submitted owner sts => exact absurd rfl (he owner sts)
  | _ => exact List.append_nil _

theorem submissions_name (w : Bluetooth ρ) (parent : ρ) (owner : Nat) (n : Option (List Byte)) :
    (w.name A parent owner n).submissions = w.submissions := by
  cases n with
  | none => rfl
  | some n => exact (submissions_note _ fun _ _ => Effect.noConfusion).trans (submissions_modify _ _ _)

/-- The owner of the transaction the loop is handling. -/
def inHand : Pc ρ → List Nat
  | .handling _ owner (.running _) => [owner]
  | _ => []

theorem submissions_handle {q : ρ} {owner i : Nat} (hpc : w.pc = .handling q owner (.running i))
    (hw : w.handle A parse q owner (.running i) = some w') (hin : w'.pc ≠ .crashed) :
    w'.submissions ++ inHand w'.pc = w.submissions ++ inHand w.pc := by
  rcases handle_cases hw with ⟨_, rfl⟩ | ⟨t, w₁, hderef, hconsult, hcase⟩
  · exact absurd rfl hin
  obtain ⟨k, hk, ht⟩ := deref_eq_some.mp hderef
  have hnoted : w₁.submissions = w.submissions ∧ w₁.index A = w.index A ∧ w₁.pc = w.pc := by
    rcases hconsult with rfl | rfl
    · exact ⟨rfl, rfl, rfl⟩
    · exact ⟨submissions_note w fun _ _ => Effect.noConfusion, rfl, rfl⟩
  obtain ⟨hsub, hindex, hpc₁⟩ := hnoted
  rcases hcase with ⟨_, _, rfl⟩ | rfl | ⟨r, hr, rfl⟩
  · rw [modify_of_index (by rw [hindex, hk] : w₁.index A q = some k)]
    exact congrArg₂ (fun xs pc => xs ++ inHand pc) hsub hpc₁
  · exact absurd rfl hin
  · unfold handled at hin ⊢
    dsimp only at hin ⊢
    split at hin
    · exact absurd rfl hin
    · rename_i parent hparent
      have hadd : ((w₁.modify A q (store r.trans)).note (.submitted owner r.statements)).submissions =
          w.submissions ++ [owner] := by
        rw [← hsub, ← submissions_modify w₁ q (store r.trans)]
        unfold submissions note
        rw [List.filterMap_append]
        rfl
      rw [hpc]
      show _ ++ [] = w.submissions ++ [owner]
      rw [List.append_nil, ← hadd]
      refine Eq.trans ?_ (submissions_name (A := A) _ parent owner r.name)
      rw [submissions_goto, submissions_note, submissions_modify]
      · rfl
      · simp

theorem submissions_job {i : Nat} {e : Event winsock} (h : w.jobReturned A i e = some w') :
    w'.submissions = w.submissions := by
  obtain ⟨t, s, prog, _, _, _, _, hw⟩ := jobReturned_eq_some h
  rcases hw with ⟨b, _, rfl⟩ | rfl
  · exact (submissions_note _ (by simp)).trans (submissions_modify _ _ _)
  · exact submissions_note _ (by simp)

theorem submissions_checkRunning (w : Bluetooth ρ) (i : Nat) :
    (w.checkRunning A i).submissions = w.submissions := by
  have hconsult : ∀ t : BtTabObj ρ, (w.consult t).submissions = w.submissions := fun t =>
    submissions_note w fun _ _ => Effect.noConfusion
  unfold checkRunning
  split
  · rfl
  · split
    · rfl
    · split
      · exact hconsult _
      · exact hconsult _
      · exact hconsult _

/-- An entry that is found ready goes into the hands of the loop. -/
theorem inHand_checkRunning {i : Nat} {launch : Launch} {readWholeFile : Files}
    (hpc : w.pc = .running i) (hgoes : (w.checkRunning A i).pc ≠ .crashed) :
    inHand (w.checkRunning A i).pc =
      ((asking A w (.go launch readWholeFile)).filter Prod.snd).map fun v => v.1.owner := by
  unfold asking
  rw [hpc]
  dsimp only
  cases he : w.runningTransactions[i]? with
  | none =>
      unfold checkRunning
      rw [he]
      rfl
  | some e =>
      have hpc' := (checkRunning_eq (A := A) he).2
      dsimp only
      cases hready : w.isReady? A e with
      | none =>
          rw [hready] at hpc'
          exact absurd hpc' hgoes
      | some b =>
          rw [hready] at hpc'
          rw [hpc']
          cases b with
          | true => rfl
          | false => rfl

/-- What has been submitted or is in hand grows by what is found ready. -/
theorem submissions_step {a : Act} (hin : InRunning w.pc) (hact : w.act A parse a = some w')
    (hgoes : w'.pc ≠ .crashed) :
    w'.submissions ++ inHand w'.pc = w.submissions ++ inHand w.pc ++
      ((asking A w a).filter Prod.snd).map fun v => v.1.owner := by
  rcases running_act hin hact with ⟨i, e, rfl, hjob⟩ | ⟨launch, readWholeFile, rfl, hgo⟩
  · rw [submissions_job hjob, (Still.job hjob).2.1]
    exact (List.append_nil _).symm
  · rcases hgo with ⟨i, hpc, rfl⟩ | ⟨q, owner, i, hpc, hhandle⟩
    · have hnone : inHand w.pc = [] := by
        rw [hpc]
        rfl
      rw [submissions_checkRunning, inHand_checkRunning hpc hgoes, hnone, List.append_nil]
    · -- the result that is handled is submitted
      have hask : asking A w (.go launch readWholeFile) = [] := by
        unfold asking
        rw [hpc]
      rw [hask, submissions_handle hpc hhandle hgoes]
      exact (List.append_nil _).symm

theorem submissions_of_path {l : List (Bluetooth ρ × Act)}
    (hpath : Steps.Path (act A parse) (fun w _ => InRunning w.pc) w l w') (hends : w'.pc = .idle) :
    w'.submissions = w.submissions ++ inHand w.pc ++
      ((l.flatMap fun s => asking A s.1 s.2).filter Prod.snd).map fun v => v.1.owner := by
  induction hpath with
  | @nil w =>
      rw [hends]
      simp [inHand]
  | @cons w w₁ w' a l hin hact hpath ih =>
      rw [List.flatMap_cons, List.filter_append, List.map_append, ih hends,
        submissions_step hin hact (path_not_crashed hpath hends), List.append_assoc]

/--
**A pass handles and removes every transaction that was ready when it began** if and only
if none of them directly follows one that the loop finds ready. What it removes it has
handled, in order, and the others stay, in order.
-/
theorem RunningPass.removes_iff {l : List (Bluetooth ρ × Act)} (hpass : RunningPass A parse w l w') :
    w'.runningTransactions = (w.runningTransactions.zipIdx.filter fun x =>
        x.2 ∉ erasedPlaces 0 (answers A l)).map Prod.fst ∧
      w'.submissions = w.submissions ++ (w.runningTransactions.zipIdx.filter fun x =>
        x.2 ∈ erasedPlaces 0 (answers A l)).map (·.1.owner) ∧
      ((∀ i e, w.runningTransactions[i]? = some e → w.isReady? A e = some true →
          i ∈ erasedPlaces 0 (answers A l)) ↔
        ∀ i ∈ erasedPlaces 0 (answers A l), ∀ e, w.runningTransactions[i + 1]? = some e →
          w.isReady? A e ≠ some true) := by
  have hwalk := queueWalk_of_path hpass.path hpass.ends
  unfold QueueWalk at hwalk
  rw [hpass.begins] at hwalk
  obtain ⟨rest, hwalk, hqueue⟩ := hwalk
  rw [List.take_zero, List.nil_append] at hqueue
  rw [List.drop_zero] at hwalk
  refine ⟨hqueue.trans hwalk.rest_eq, ?_, ?_⟩
  · have hhandled := submissions_of_path hpass.path hpass.ends
    have herased := congrArg (List.map (·.owner)) hwalk.erased_eq
    rw [List.map_map, List.map_map] at herased
    rw [hpass.begins] at hhandled
    rw [hhandled]
    show w.submissions ++ [] ++ _ = _
    rw [List.append_nil]
    exact congrArg (w.submissions ++ ·) herased
  · refine hwalk.all_erased_iff (P := fun e => w.isReady? A e = some true) fun e b hm hready => ?_
    obtain ⟨j, hj, hsettled⟩ := settled_of_ready hready
    exact found_of_settled hpass.path hpass.ends hj hsettled hm

/-! ## One frame -/

/--
**One frame serves everybody** exactly when nobody stands directly behind one that is
removed: in `connectedTablets`, behind a tablet that says goodbye; in the queue, behind a
transaction that the loop finds ready.
-/
theorem oneFrame_iff {ready : Nat → Prop} {l m : List (Bluetooth ρ × Act)} {v v' : Bluetooth ρ}
    (hrun : Run A parse (fun _ _ => True) w) (hready : ReadyPass A parse w l w')
    (hstays : StaysReady ready l) (hrunning : RunningPass A parse v m v') :
    ((∀ t ∈ w.connectedTablets, t.transactionState = false → ready t.serial →
        ((reads l).map Prod.fst).count t.serial = 1) ↔
      ∀ i t u c, w.connectedTablets[i]? = some t → w.connectedTablets[i + 1]? = some u →
        (t.serial, c) ∈ reads l → isGoodbye c = true →
        ¬ (u.transactionState = false ∧ ready u.serial)) ∧
    v'.runningTransactions = (v.runningTransactions.zipIdx.filter fun x =>
      x.2 ∉ erasedPlaces 0 (answers A m)).map Prod.fst ∧
    v'.submissions = v.submissions ++ (v.runningTransactions.zipIdx.filter fun x =>
      x.2 ∈ erasedPlaces 0 (answers A m)).map (·.1.owner) ∧
    ((∀ i e, v.runningTransactions[i]? = some e → v.isReady? A e = some true →
        i ∈ erasedPlaces 0 (answers A m)) ↔
      ∀ i ∈ erasedPlaces 0 (answers A m), ∀ e, v.runningTransactions[i + 1]? = some e →
        v.isReady? A e ≠ some true) :=
  ⟨hready.reads_iff (tableInv_run hrun) hstays, hrunning.removes_iff⟩

/-! ## Two frames -/

/-- Where the main thread is, without the program and the pointers it holds. -/
def place : Pc ρ → Nat × Nat
  | .idle => (0, 0)
  | .ready i => (1, i)
  | .polling i _ => (2, i)
  | .started i _ => (3, i)
  | .handling _ _ (.ready i) => (4, i)
  | .handling _ _ (.running i) => (5, i)
  | .running i => (6, i)
  | .crashed => (7, 0)

/-- In `handleReadyConnections`, with something to read in every socket. -/
def allReady (w : Bluetooth ρ) (a : Act) : Bool :=
  [1, 2, 3, 4].contains (place w.pc).1 &&
    match a with
    | .call e => decide (ReportsReady e.1 e.2)
    | _ => true

/-- In `handleRunningTransactions`. -/
def inQueue (w : Bluetooth ρ) (_ : Act) : Bool := [5, 6].contains (place w.pc).1

theorem of_place {pc : Pc ρ} :
    ([1, 2, 3, 4].contains (place pc).1 = true → InReady pc) ∧
      ([5, 6].contains (place pc).1 = true → InRunning pc) ∧
      (∀ i, place pc = (1, i) → pc = .ready i) ∧ (∀ i, place pc = (6, i) → pc = .running i) ∧
      (place pc = (0, 0) → pc = .idle) := by
  cases pc with
  | handling q owner caller =>
      cases caller with
      | ready i => simp [place, InReady]
      | running i => simp [place, InRunning]
  | ready i => simp [place, InReady]
  | polling i p => simp [place, InReady]
  | started i q => simp [place, InReady]
  | idle => simp [place]
  | running i => simp [place, InRunning]
  | crashed => simp [place]

theorem readyPass_of_record {as : List Act} {l : List (Bluetooth ρ × Act)}
    (hw : place w.pc = (1, 0)) (h : Steps.record (act A parse) allReady as w = some (l, w'))
    (hw' : place w'.pc = (6, 0)) : ReadyPass A parse w l w' ∧ StaysReady (fun _ => True) l := by
  have hpath : Steps.Path (act A parse) (fun v a => allReady v a = true) w l w' :=
    Steps.path_of_record (fun _ _ hva => hva) h
  refine ⟨⟨of_place.2.2.1 0 hw, ?_, of_place.2.2.2.1 0 hw'⟩, ?_⟩
  · refine Steps.path_of_record (fun v a hva => ?_) h
    exact of_place.1 ((Bool.and_eq_true _ _).mp hva).1
  · intro s hs i p t e _ _ _ he
    have hcheck := ((Bool.and_eq_true _ _).mp (hpath.ok_of_mem hs)).2
    rw [he] at hcheck
    exact of_decide_eq_true hcheck

theorem runningPass_of_record {as : List Act} {l : List (Bluetooth ρ × Act)}
    (hw : place w.pc = (6, 0)) (h : Steps.record (act A parse) inQueue as w = some (l, w'))
    (hw' : place w'.pc = (0, 0)) : RunningPass A parse w l w' where
  begins := of_place.2.2.2.1 0 hw
  path := Steps.path_of_record (fun _ _ hva => of_place.2.1 hva) h
  ends := of_place.2.2.2.2 hw'

/-- Two tablets have joined, and the second frame begins. -/
def secondFrame : List Act :=
  joins 10 :: passedOver ++ [onward, onward, joins 11]

/-- Both start a transfer. -/
def bothStart : List Act :=
  sendsCode 2 ++ [onward, onward] ++ sendsCode 2 ++ [onward, onward] ++ [onward]

/-- The first transfer fails for want of memory. -/
def firstFails : List Act :=
  [.job 0 ⟨.setSuccess true, ()⟩, .job 0 ⟨.malloc 3, false⟩, .job 0 ⟨.setSuccess false, ()⟩]

/-- The first says goodbye, and the second is not looked at. -/
def secondSkipped : List Act :=
  sendsCode 0 ++ [.call ⟨.closesocket, ()⟩, onward, onward, onward]

theorem oneFrame_iff_bothStart : ∃ (w w' v v' : Bluetooth (Nat × Nat))
    (l m : List (Bluetooth (Nat × Nat) × Act)),
    ReadyPass slots (fun _ => none) w l w' ∧ RunningPass slots (fun _ => none) v m v' ∧
      (∀ t ∈ w.connectedTablets, t.transactionState = false →
        ((reads l).map Prod.fst).count t.serial = 1) ∧
      v.runningTransactions.map (·.owner) = [0, 1] ∧
      v'.runningTransactions.map (·.owner) = [1] := by
  have hr : ((Steps.replay (act slots fun _ => none) (fun _ _ => true) secondFrame init).bind
      fun w => (Steps.record (act slots fun _ => none) allReady bothStart w).bind
      fun r => (Steps.replay (act slots fun _ => none) (fun _ _ => true) firstFails r.2).bind
      fun v => (Steps.record (act slots fun _ => none) inQueue [onward, onward, onward] v).map
      fun q => ([w.pc, r.2.pc, v.pc, q.2.pc].map place, reads r.1,
        [v, q.2].map fun u => u.runningTransactions.map (·.owner))) =
      some ([(1, 0), (6, 0), (6, 0), (0, 0)], [(0, 2), (1, 2)], [[0, 1], [1]]) := by
    decide +kernel
  obtain ⟨w, hw, hr⟩ := Option.bind_eq_some_iff.mp hr
  obtain ⟨⟨l, w'⟩, hl, hr⟩ := Option.bind_eq_some_iff.mp hr
  obtain ⟨v, hv, hr⟩ := Option.bind_eq_some_iff.mp hr
  obtain ⟨⟨m, v'⟩, hm, heq⟩ := Option.map_eq_some_iff.mp hr
  simp only [List.map_cons, List.map_nil, Prod.mk.injEq, List.cons.injEq, and_true] at heq
  obtain ⟨⟨hpw, hpw', hpv, hpv'⟩, hreads, hqueue, hqueue'⟩ := heq
  obtain ⟨hready, hstays⟩ := readyPass_of_record hpw hl hpw'
  have hrunning := runningPass_of_record hpv hm hpv'
  have hrun : Run slots (fun _ => none) (fun _ _ => True) w :=
    Steps.run_of_replay (fun _ _ _ => trivial) .init hw
  refine ⟨w, w', v, v', l, m, hready, hrunning, ?_, hqueue, hqueue'⟩
  have hall := (oneFrame_iff hrun hready hstays hrunning).1.mpr fun i t u c _ _ hc hbye => ?_
  · exact fun t ht hfree => hall t ht hfree trivial
  · rw [hreads] at hc
    simp only [List.mem_cons, Prod.mk.injEq, List.not_mem_nil, or_false] at hc
    rcases hc with ⟨_, rfl⟩ | ⟨_, rfl⟩
    · exact absurd hbye (by decide)
    · exact absurd hbye (by decide)

/-- A tablet is not looked at in a frame in which the one in front of it says goodbye. -/
theorem oneFrame_secondSkipped : ¬ ∀ (parse : List Byte → Option Json)
    (w w' : Bluetooth (Nat × Nat)) (l : List (Bluetooth (Nat × Nat) × Act)) (ready : Nat → Prop),
    Run slots parse (fun _ _ => True) w → ReadyPass slots parse w l w' → StaysReady ready l →
    ∀ t ∈ w.connectedTablets, t.transactionState = false → ready t.serial →
      ((reads l).map Prod.fst).count t.serial = 1 := by
  intro hall
  have hr : ((Steps.replay (act slots fun _ => none) (fun _ _ => true) secondFrame init).bind
      fun w => (Steps.record (act slots fun _ => none) allReady secondSkipped w).map
      fun r => ([w.pc, r.2.pc].map place, reads r.1, w.states)) =
      some ([(1, 0), (6, 0)], [(0, 0)], [(0, false), (1, false)]) := by decide +kernel
  obtain ⟨w, hw, hr⟩ := Option.bind_eq_some_iff.mp hr
  obtain ⟨⟨l, w'⟩, hl, heq⟩ := Option.map_eq_some_iff.mp hr
  simp only [List.map_cons, List.map_nil, Prod.mk.injEq, List.cons.injEq, and_true] at heq
  obtain ⟨⟨hpw, hpw'⟩, hreads, hstates⟩ := heq
  obtain ⟨hready, hstays⟩ := readyPass_of_record hpw hl hpw'
  have hmem : (1, false) ∈ w.states := by
    rw [hstates]
    decide
  obtain ⟨t, ht, heq⟩ := mem_states.mp hmem
  obtain ⟨hserial, hfree⟩ := Prod.mk.injEq _ _ _ _ ▸ heq
  have hone := hall (fun _ => none) w w' l (fun _ => True)
    (Steps.run_of_replay (fun _ _ _ => trivial) .init hw) hready hstays t ht hfree.symm trivial
  rw [hreads, ← hserial] at hone
  exact absurd hone (by decide)

end ScoutComputer.Bluetooth
