import ScoutComputer.Bluetooth.Server
import ScoutComputer.Lib.Lists

/-!
# Every pointer in use points at its own tablet

The invariant of the server. It holds for either addressing as long as no step moves or
removes a tablet that is undergoing a transaction out from under the pointers to it
(`KeepsBusy`): every entry of `runningTransactions`, every `parent` and every running
job is then about the tablet whose code started it, there is one entry for each tablet
that is undergoing a transaction, and none for any other.
-/

namespace ScoutComputer

open Interact

/-- The codes `initReadyTransaction` starts a job for. -/
def startsJob (c : TransactionType) : Bool :=
  0 < c || c = transSendLocalDb || c = transSendLocalDbHash

/-- The effect concerns the tablet whose code started the transaction, and no other. -/
def Effect.OwnTablet : Effect → Prop
  | .moved via owner _ _ => via = some owner
  | .flagged on owner => on = some owner
  | .named on owner _ => on = some owner
  | .released on owner => on = some owner
  | _ => True

/-- A future is consulted for the code it was started for, if the code starts one. -/
def Effect.CurrentIff : Effect → Prop
  | .consulted _ c current => current = startsJob c
  | _ => True

/-- The index of the tablet the main thread holds a transaction of. -/
def Pc.focus {ρ : Type} : Pc ρ → Option Nat
  | .started i _ => some i
  | .handling _ _ (.ready i) => some i
  | _ => none

namespace Bluetooth

variable {ρ : Type} {A : Addressing ρ} {w w' : Bluetooth ρ}

/-! ## What a change of fields leaves alone -/

@[simp] theorem note_connectedTablets (w : Bluetooth ρ) (e : Effect) :
    (w.note e).connectedTablets = w.connectedTablets := rfl

@[simp] theorem goto_connectedTablets (w : Bluetooth ρ) (pc : Pc ρ) :
    (w.goto pc).connectedTablets = w.connectedTablets := rfl

@[simp] theorem note_runningTransactions (w : Bluetooth ρ) (e : Effect) :
    (w.note e).runningTransactions = w.runningTransactions := rfl

@[simp] theorem goto_runningTransactions (w : Bluetooth ρ) (pc : Pc ρ) :
    (w.goto pc).runningTransactions = w.runningTransactions := rfl

/-- The same tablets are in the same places. -/
structure SameTable (w w' : Bluetooth ρ) : Prop where
  buf : w'.buf = w.buf
  sockets : w'.sockets = w.sockets
  serials : w'.serials = w.serials
  accepted : w'.accepted = w.accepted

theorem SameTable.refl (w : Bluetooth ρ) : SameTable w w := ⟨rfl, rfl, rfl, rfl⟩

theorem SameTable.trans {w₁ w₂ w₃ : Bluetooth ρ} (h : SameTable w₁ w₂) (h' : SameTable w₂ w₃) :
    SameTable w₁ w₃ :=
  ⟨h'.buf.trans h.buf, h'.sockets.trans h.sockets, h'.serials.trans h.serials,
    h'.accepted.trans h.accepted⟩

theorem SameTable.resolve (h : SameTable w w') : w'.resolve A = w.resolve A := by
  funext p
  unfold Bluetooth.resolve Bluetooth.index
  rw [h.buf, h.sockets, h.serials]

/-- `f` keeps what pointers and ghosts go by. -/
def KeepsPlace (f : BtTabObj ρ → BtTabObj ρ) : Prop :=
  ∀ t, (f t).socket = t.socket ∧ (f t).serial = t.serial

theorem sameTable_modifyAt {f : BtTabObj ρ → BtTabObj ρ} (hf : KeepsPlace f)
    (w : Bluetooth ρ) (i : Nat) : SameTable w (w.modifyAt i f) :=
  ⟨rfl, Lists.map_modify_of_eq (fun t => (hf t).1) _ _, Lists.map_modify_of_eq (fun t => (hf t).2) _ _, rfl⟩

/-- A pointer that resolves leads to a tablet. -/
theorem exists_of_resolve {p : ρ} {n : Nat} (h : w.resolve A p = some n) :
    ∃ i t, w.index A p = some i ∧ w.connectedTablets[i]? = some t ∧ t.serial = n := by
  obtain ⟨i, hi, hn⟩ := Option.bind_eq_some_iff.mp h
  rw [serials, List.getElem?_map] at hn
  obtain ⟨t, ht, hs⟩ := Option.map_eq_some_iff.mp hn
  exact ⟨i, t, hi, ht, hs⟩

/-- Tablets are told apart by their serial numbers. -/
theorem eq_of_serial (hn : w.serials.Nodup) {i j : Nat} {t u : BtTabObj ρ}
    (ht : w.connectedTablets[i]? = some t) (hu : w.connectedTablets[j]? = some u)
    (h : t.serial = u.serial) : i = j ∧ t = u := by
  obtain ⟨hi, _⟩ := List.getElem?_eq_some_iff.mp ht
  have hi' : i < w.serials.length := by
    rw [serials, List.length_map]
    exact hi
  have heq : w.serials[i]? = w.serials[j]? := by
    rw [serials, List.getElem?_map, List.getElem?_map, ht, hu]
    exact congrArg some h
  have hij := (List.getElem?_inj hi' hn).mp heq
  subst hij
  rw [ht] at hu
  exact ⟨rfl, Option.some.inj hu⟩

theorem deref_of_resolve {p : ρ} {n i : Nat} {t : BtTabObj ρ} (hn : w.serials.Nodup)
    (h : w.resolve A p = some n) (ht : w.connectedTablets[i]? = some t) (hs : t.serial = n) :
    w.index A p = some i ∧ w.deref A p = some t := by
  obtain ⟨j, u, hj, hu, hus⟩ := exists_of_resolve h
  obtain ⟨hij, htu⟩ := eq_of_serial hn ht hu (hs.trans hus.symm)
  subst hij
  subst htu
  refine ⟨hj, ?_⟩
  rw [deref, hj]
  exact hu

theorem modify_of_resolve {p : ρ} {n i : Nat} {t : BtTabObj ρ} (hn : w.serials.Nodup)
    (h : w.resolve A p = some n) (ht : w.connectedTablets[i]? = some t) (hs : t.serial = n)
    (f : BtTabObj ρ → BtTabObj ρ) : w.modify A p f = w.modifyAt i f := by
  unfold modify
  rw [(deref_of_resolve hn h ht hs).1]

theorem modifyAt_get (w : Bluetooth ρ) (i : Nat) (f : BtTabObj ρ → BtTabObj ρ) (j : Nat) :
    (w.modifyAt i f).connectedTablets[j]? =
      if i = j then w.connectedTablets[j]?.map f else w.connectedTablets[j]? := by
  show (w.connectedTablets.modify i f)[j]? = _
  rw [List.getElem?_modify]
  split
  · rfl
  · exact Option.map_id'

theorem modify_modifyAt {p : ρ} {n j : Nat} {t : BtTabObj ρ} {f : BtTabObj ρ → BtTabObj ρ}
    (hn : w.serials.Nodup) (h : w.resolve A p = some n) (ht : w.connectedTablets[j]? = some t)
    (hs : t.serial = n) (hf : KeepsPlace f) (g : BtTabObj ρ → BtTabObj ρ) :
    (w.modifyAt j f).modify A p g = w.modifyAt j (g ∘ f) := by
  have hst := sameTable_modifyAt hf w j
  have ht' := modifyAt_get w j f j
  rw [if_pos rfl, ht] at ht'
  rw [modify_of_resolve (hst.serials ▸ hn) (by rw [hst.resolve]; exact h) ht' ((hf t).2.trans hs)]
  unfold modifyAt
  rw [List.modify_modify_eq]

/-! ## Which tablets are undergoing a transaction -/

/-- A tablet with serial number `n` is undergoing a transaction. -/
def Busy (w : Bluetooth ρ) (n : Nat) : Prop :=
  (n, true) ∈ w.connectedTablets.map fun t => (t.serial, t.transactionState)

theorem busy_iff {n : Nat} :
    w.Busy n ↔ ∃ t ∈ w.connectedTablets, t.serial = n ∧ t.transactionState = true := by
  unfold Busy
  rw [List.mem_map]
  constructor
  · rintro ⟨t, ht, heq⟩
    exact ⟨t, ht, congrArg Prod.fst heq, congrArg Prod.snd heq⟩
  · rintro ⟨t, ht, hs, hb⟩
    exact ⟨t, ht, by rw [hs, hb]⟩

theorem busy_serial (hn : w.serials.Nodup) {i : Nat} {t : BtTabObj ρ}
    (ht : w.connectedTablets[i]? = some t) : w.Busy t.serial ↔ t.transactionState = true := by
  rw [busy_iff]
  constructor
  · rintro ⟨u, hu, hs, hb⟩
    obtain ⟨j, hj⟩ := List.mem_iff_getElem?.mp hu
    obtain ⟨_, rfl⟩ := eq_of_serial hn hj ht hs
    exact hb
  · intro hb
    exact ⟨t, List.mem_of_getElem? ht, rfl, hb⟩

theorem busy_modifyAt {f : BtTabObj ρ → BtTabObj ρ} (hf : KeepsPlace f)
    (hb : ∀ t, (f t).transactionState = t.transactionState) (w : Bluetooth ρ) (i n : Nat) :
    (w.modifyAt i f).Busy n ↔ w.Busy n := by
  unfold Busy modifyAt
  rw [Lists.map_modify_of_eq]
  intro t
  rw [(hf t).2, hb]

/-- Changing one tablet changes nothing for the others. -/
theorem busy_modifyAt_ne {f : BtTabObj ρ → BtTabObj ρ} (hf : KeepsPlace f) {i n : Nat}
    {t : BtTabObj ρ} (ht : w.connectedTablets[i]? = some t) (hne : n ≠ t.serial) :
    (w.modifyAt i f).Busy n ↔ w.Busy n := by
  rw [busy_iff, busy_iff]
  constructor
  · rintro ⟨u, hu, hs, hb⟩
    obtain ⟨j, hj⟩ := List.mem_iff_getElem?.mp hu
    rw [modifyAt_get] at hj
    split at hj
    · rename_i hij
      subst hij
      rw [ht] at hj
      have hu := Option.some.inj hj
      rw [← hu, (hf t).2] at hs
      exact absurd hs.symm hne
    · exact ⟨u, List.mem_of_getElem? hj, hs, hb⟩
  · rintro ⟨u, hu, hs, hb⟩
    obtain ⟨j, hj⟩ := List.mem_iff_getElem?.mp hu
    refine ⟨u, List.mem_of_getElem? (i := j) ?_, hs, hb⟩
    rw [modifyAt_get]
    split
    · rename_i hij
      subst hij
      rw [ht] at hj
      rw [← Option.some.inj hj] at hs
      exact absurd hs.symm hne
    · exact hj

/-! ## The invariant -/

/-- Whether there are pointers to the tablet at index `j`. -/
def active (pc : Pc ρ) (j : Nat) (t : BtTabObj ρ) : Prop :=
  t.transactionState = true ∨ pc.focus = some j

/-- What holds of one tablet; `resolve` says what pointers resolve to. -/
structure TabOk (resolve : ρ → Option Nat) (active : Prop) (t : BtTabObj ρ) : Prop where
  quiet : ¬ active → t.jobRunning = false
  parent : active → ∃ p, t.currTrans.parent = some p ∧ resolve p = some t.serial
  /-- The job of the current code works on this tablet. -/
  job : active → ∀ s, t.currTrans.data = some s → s.forCode = t.codesRead →
    s.owner = t.serial ∧ resolve s.this = some t.serial ∧ resolve s.success = some t.serial
  /-- A job of an earlier code is over. -/
  stale : ∀ s, t.currTrans.data = some s → s.forCode ≠ t.codesRead → t.jobRunning = false
  old : ∀ s, t.currTrans.data = some s → s.forCode ≤ t.codesRead
  current : active → (t.currTrans.data.map (·.forCode) = some t.codesRead ↔
    startsJob t.currTrans.transactionType = true)

theorem TabOk.mono {resolve resolve' : ρ → Option Nat} {active active' : Prop} {t : BtTabObj ρ}
    (h : TabOk resolve active t) (ha : active' ↔ active)
    (hr : active → ∀ p, resolve p = some t.serial → resolve' p = some t.serial) :
    TabOk resolve' active' t := by
  refine ⟨fun hna => h.quiet (mt ha.mpr hna), fun hact => ?_, fun hact s hs hc => ?_, h.stale,
    h.old, fun hact => h.current (ha.mp hact)⟩
  · obtain ⟨p, hp, hres⟩ := h.parent (ha.mp hact)
    exact ⟨p, hp, hr (ha.mp hact) p hres⟩
  · obtain ⟨ho, ht, hsu⟩ := h.job (ha.mp hact) s hs hc
    exact ⟨ho, hr (ha.mp hact) _ ht, hr (ha.mp hact) _ hsu⟩

/-- A tablet nobody has a pointer to, and whose job is over. -/
theorem TabOk.atRest {resolve : ρ → Option Nat} {a : Prop} {t : BtTabObj ρ} (hna : ¬ a)
    (hstop : t.jobRunning = false)
    (hold : ∀ s, t.currTrans.data = some s → s.forCode ≤ t.codesRead) : TabOk resolve a t :=
  ⟨fun _ => hstop, fun ha => absurd ha hna, fun ha => absurd ha hna, fun _ _ _ => hstop, hold,
    fun ha => absurd ha hna⟩

/-- What is remembered of a run when only its result matters: nothing. -/
def unobserved : Observer winsock Unit where
  allow _ _ _ := True
  next _ _ _ := ()

/-- The main thread handles the result of tablet `owner`, whose job is over or will be awaited. -/
def HandlingOk (A : Addressing ρ) (w : Bluetooth ρ) (q : ρ) (owner j : Nat) : Prop :=
  ∃ t, w.connectedTablets[j]? = some t ∧ t.serial = owner ∧ w.resolve A q = some owner ∧
    (t.currTrans.needsGet = false → t.jobRunning = false)

/-- Where the main thread is makes sense. -/
def PcOk (A : Addressing ρ) (w : Bluetooth ρ) : Pc ρ → Prop
  | .polling i p => ∃ t, w.connectedTablets[i]? = some t ∧
      Spec unobserved p () (fun _ => True) fun _ r => t.transactionState = true → r = none
  | .started i q => ∃ t, w.connectedTablets[i]? = some t ∧ t.transactionState = false ∧
      w.resolve A q = some t.serial
  | .handling q owner caller => ∃ j, HandlingOk A w q owner j ∧
      match caller with
      | .ready i => i = j ∧ ¬ w.Busy owner
      | .running i => w.runningTransactions[i]? = some ⟨q, owner⟩
  | _ => True

/-- **The invariant.** -/
structure Inv (A : Addressing ρ) (w : Bluetooth ρ) : Prop where
  sockets : w.sockets.Nodup
  serials : w.serials.Nodup
  fresh : ∀ n ∈ w.serials, n < w.accepted
  tablet : ∀ j t, w.connectedTablets[j]? = some t → TabOk (w.resolve A) (active w.pc j t) t
  /-- Every entry of the queue still points at its tablet. -/
  entry : ∀ e ∈ w.runningTransactions, w.resolve A e.trans = some e.owner
  once : (w.runningTransactions.map (·.owner)).Nodup
  busy : ∀ n, n ∈ w.runningTransactions.map (·.owner) ↔ w.Busy n
  pc : PcOk A w w.pc
  log : ∀ e ∈ w.log, e.OwnTablet ∧ e.CurrentIff

theorem inv_init : Inv A (init : Bluetooth ρ) where
  sockets := List.nodup_nil
  serials := List.nodup_nil
  fresh _ h := absurd h List.not_mem_nil
  tablet _ _ h := by simp [init] at h
  entry _ h := absurd h List.not_mem_nil
  once := List.nodup_nil
  busy n := by simp [busy_iff, init]
  pc := trivial
  log _ h := absurd h List.not_mem_nil

/-- The invariant, as far as it outlives a crash. -/
def Sound (A : Addressing ρ) (w : Bluetooth ρ) : Prop :=
  Inv A w ∨ w.pc = .crashed ∧ ∀ e ∈ w.log, e.OwnTablet ∧ e.CurrentIff

theorem Inv.crash (h : Inv A w) : Sound A (w.goto .crashed) := Or.inr ⟨rfl, h.log⟩

theorem Sound.log (h : Sound A w) : ∀ e ∈ w.log, e.OwnTablet ∧ e.CurrentIff := by
  rcases h with h | h
  · exact h.log
  · exact h.2

theorem Inv.note (h : Inv A w) {e : Effect} (he : e.OwnTablet ∧ e.CurrentIff) :
    Inv A (w.note e) := by
  refine ⟨h.sockets, h.serials, h.fresh, h.tablet, h.entry, h.once, h.busy, h.pc, ?_⟩
  intro e' he'
  rcases List.mem_append.mp he' with hm | hm
  · exact h.log e' hm
  · rw [List.mem_singleton.mp hm]
    exact he

/-- Going on while the main thread holds the same transaction, or none. -/
theorem Inv.goto (h : Inv A w) {pc : Pc ρ} (hf : pc.focus = w.pc.focus) (hpc : PcOk A w pc) :
    Inv A (w.goto pc) := by
  refine ⟨h.sockets, h.serials, h.fresh, ?_, h.entry, h.once, h.busy, hpc, h.log⟩
  intro j t ht
  refine (h.tablet j t ht).mono ?_ fun _ _ hp => hp
  show t.transactionState = true ∨ pc.focus = some j ↔ _
  rw [hf]
  exact Iff.rfl

/-! ## What the main thread does -/

theorem modify_of_index {p : ρ} {i : Nat} (h : w.index A p = some i)
    (f : BtTabObj ρ → BtTabObj ρ) : w.modify A p f = w.modifyAt i f := by
  unfold modify
  rw [h]

/-- A new code is served by a new future, and the old one has returned. -/
theorem polled_some {launch : Launch} {readWholeFile : Files} {i : Nat} {c : TransactionType}
    (h : w.polled A launch readWholeFile i (some c) = some w') :
    ∃ t, w.connectedTablets[i]? = some t ∧ t.jobRunning = false ∧
      w' = (w.modifyAt i (serve (w.pointer A i) launch readWholeFile c)).goto
        (.started i (w.pointer A i)) := by
  unfold polled at h
  dsimp only at h
  split at h
  · exact absurd h (by simp)
  · rename_i t ht
    split at h
    · exact absurd h (by simp)
    · rename_i hgo
      have hstop : t.jobRunning = false := by
        cases hj : t.jobRunning with
        | false => rfl
        | true => exact absurd (by rw [hj, Bool.true_or]) hgo
      cases h
      exact ⟨t, ht, hstop, rfl⟩

/-- A tablet that is not hung up on is handled at once if its future is ready, else queued. -/
theorem startedTrans_stays {i : Nat} {trans p : ρ} {t : BtTabObj ρ}
    (hderef : w.deref A trans = some t) (hbatman : t.currTrans.batmanTrans = false)
    (hparent : t.currTrans.parent = some p) (hp : w.index A p = some i)
    (h : w.startedTrans A i trans = some w') :
    w' = (w.consult t).goto .crashed ∨
      t.currTrans.isReady = some true ∧
        w' = (w.consult t).goto (.handling trans t.serial (.ready i)) ∨
      w' = (((w.consult t).push ⟨trans, t.serial⟩).modifyAt i
        (setTransactionState true)).goto (.ready (i + 1)) := by
  unfold startedTrans at h
  rw [hderef] at h
  dsimp only at h
  rw [if_neg (by rw [hbatman]; exact Bool.false_ne_true)] at h
  split at h
  · cases h
    exact Or.inl rfl
  · rename_i hready
    cases h
    exact Or.inr (Or.inl ⟨hready, rfl⟩)
  · rw [hparent] at h
    dsimp only at h
    rw [modify_of_index (w := (w.consult t).push _) hp] at h
    cases h
    exact Or.inr (Or.inr rfl)

/--
`handleTransResult` fails, or waits, or has a result. That it consults a future is noted
before that.
-/
theorem handle_cases {parse : List Byte → Option Json} {trans : ρ} {owner : Nat} {caller : Caller}
    (h : w.handle A parse trans owner caller = some w') :
    w.deref A trans = none ∧ w' = w.goto .crashed ∨
      ∃ t w₁, w.deref A trans = some t ∧ (w₁ = w ∨ w₁ = w.consult t) ∧
        (handleTransResult parse t.currTrans = .error .waiting ∧ t.jobRunning = false ∧
            w' = w₁.modify A trans start ∨
          w' = w₁.goto .crashed ∨
          ∃ r, handleTransResult parse t.currTrans = .ok r ∧
            w' = w₁.handled A trans owner caller r) := by
  unfold handle at h
  cases hderef : w.deref A trans with
  | none =>
      rw [hderef] at h
      cases h
      exact Or.inl ⟨rfl, rfl⟩
  | some t =>
      rw [hderef] at h
      dsimp only at h
      have hconsult : (if t.currTrans.needsGet then w.consult t else w) = w ∨
          (if t.currTrans.needsGet then w.consult t else w) = w.consult t := by
        split
        · exact Or.inr rfl
        · exact Or.inl rfl
      refine Or.inr ⟨t, _, rfl, hconsult, ?_⟩
      split at h
      · rename_i hwait
        split at h
        · exact absurd h (by simp)
        · rename_i hstop
          cases h
          exact Or.inl ⟨hwait, Bool.eq_false_iff.mpr hstop, rfl⟩
      · cases h
        exact Or.inr (Or.inl rfl)
      · rename_i r hr
        cases h
        exact Or.inr (Or.inr ⟨r, hr, rfl⟩)

/-- Only the log tells that a future was consulted. -/
theorem eq_of_consulted {w₁ : Bluetooth ρ} {t : BtTabObj ρ} (h : w₁ = w ∨ w₁ = w.consult t) :
    ∃ es, w₁ = { w with log := w.log ++ es } := by
  rcases h with rfl | rfl
  · exact ⟨[], by rw [List.append_nil]⟩
  · exact ⟨_, rfl⟩

/-! ## Changing one tablet -/

/-- One tablet changes, and with it perhaps the queue and what the main thread holds. -/
theorem Inv.update (h : Inv A w) {i : Nat} {t : BtTabObj ρ} {f : BtTabObj ρ → BtTabObj ρ}
    {queue : List (QueueEntry ρ)} {pc : Pc ρ} {log : List Effect}
    (ht : w.connectedTablets[i]? = some t) (hf : KeepsPlace f)
    (hself : TabOk (w.resolve A) (active pc i (f t)) (f t))
    (hfocus : ∀ j, j ≠ i → (pc.focus = some j ↔ w.pc.focus = some j))
    (hentry : ∀ e ∈ queue, w.resolve A e.trans = some e.owner)
    (honce : (queue.map (·.owner)).Nodup)
    (hbusy : ∀ n, n ∈ queue.map (·.owner) ↔ (w.modifyAt i f).Busy n)
    (hpc : PcOk A { w.modifyAt i f with runningTransactions := queue, pc, log } pc)
    (hlog : ∀ e ∈ log, e.OwnTablet ∧ e.CurrentIff) :
    Inv A { w.modifyAt i f with runningTransactions := queue, pc, log } := by
  have hs := sameTable_modifyAt hf w i
  have hres : { w.modifyAt i f with runningTransactions := queue, pc, log }.resolve A =
      w.resolve A := hs.resolve
  refine ⟨hs.sockets ▸ h.sockets, hs.serials ▸ h.serials, ?_, ?_, hres ▸ hentry, honce, hbusy, hpc,
    hlog⟩
  · show ∀ n ∈ (w.modifyAt i f).serials, n < (w.modifyAt i f).accepted
    rw [hs.serials, hs.accepted]
    exact h.fresh
  · intro j u hu
    rw [hres]
    replace hu : (w.modifyAt i f).connectedTablets[j]? = some u := hu
    rw [modifyAt_get] at hu
    split at hu
    · rename_i hij
      subst hij
      rw [ht] at hu
      rw [← Option.some.inj hu]
      exact hself
    · rename_i hij
      refine (h.tablet j u hu).mono (or_congr Iff.rfl ?_) fun _ _ hp => hp
      exact hfocus j (Ne.symm hij)

theorem HandlingOk.modifyAt {q : ρ} {owner i j : Nat} {f : BtTabObj ρ → BtTabObj ρ}
    (h : HandlingOk A w q owner j) (hf : KeepsPlace f)
    (hget : ∀ t, w.connectedTablets[i]? = some t → (f t).currTrans.needsGet = false →
      t.currTrans.needsGet = false ∧ (t.jobRunning = false → (f t).jobRunning = false)) :
    HandlingOk A (w.modifyAt i f) q owner j := by
  obtain ⟨t, ht, hs, hq, hn⟩ := h
  unfold HandlingOk
  rw [(sameTable_modifyAt hf w i).resolve, modifyAt_get]
  split
  · rename_i hij
    subst hij
    rw [ht]
    refine ⟨f t, rfl, (hf t).2.trans hs, hq, fun hg => ?_⟩
    obtain ⟨hg', hj⟩ := hget t ht hg
    exact hj (hn hg')
  · exact ⟨t, ht, hs, hq, hn⟩

/-- A change of one tablet that starts nothing and ends nothing. -/
theorem Inv.modifyAt (h : Inv A w) {i : Nat} {t : BtTabObj ρ} {f : BtTabObj ρ → BtTabObj ρ}
    (ht : w.connectedTablets[i]? = some t) (hf : KeepsPlace f)
    (hb : ∀ u, (f u).transactionState = u.transactionState)
    (hok : TabOk (w.resolve A) (active w.pc i t) (f t))
    (hget : (f t).currTrans.needsGet = false → t.currTrans.needsGet = false ∧
      (t.jobRunning = false → (f t).jobRunning = false)) : Inv A (w.modifyAt i f) := by
  have hs := sameTable_modifyAt hf w i
  have hbusy := busy_modifyAt hf hb w i
  have hat : ∀ u, w.connectedTablets[i]? = some u → (f u).currTrans.needsGet = false →
      u.currTrans.needsGet = false ∧ (u.jobRunning = false → (f u).jobRunning = false) := by
    intro u hu
    rw [ht] at hu
    rw [← Option.some.inj hu]
    exact hget
  refine h.update ht hf ?_ (fun _ _ => Iff.rfl) h.entry h.once (fun n => (h.busy n).trans
    (hbusy n).symm) ?_ h.log
  · unfold active
    rw [hb]
    exact hok
  · have key : ∀ (j : Nat) (u : BtTabObj ρ), w.connectedTablets[j]? = some u →
        ∃ u', (w.modifyAt i f).connectedTablets[j]? = some u' ∧ u'.serial = u.serial ∧
          u'.transactionState = u.transactionState := by
      intro j u hu
      rw [modifyAt_get, hu]
      split
      · exact ⟨f u, rfl, (hf u).2, hb u⟩
      · exact ⟨u, rfl, rfl, rfl⟩
    have hpc := h.pc
    show PcOk A (w.modifyAt i f) w.pc
    cases hw : w.pc with
    | idle => trivial
    | crashed => trivial
    | ready k => trivial
    | running k => trivial
    | polling k p =>
        rw [hw] at hpc
        obtain ⟨u, hu, hp⟩ := hpc
        obtain ⟨u', hu', _, hub⟩ := key k u hu
        exact ⟨u', hu', hub ▸ hp⟩
    | started k q =>
        rw [hw] at hpc
        obtain ⟨u, hu, hub, hq⟩ := hpc
        obtain ⟨u', hu', hus', hub'⟩ := key k u hu
        refine ⟨u', hu', hub'.trans hub, ?_⟩
        rw [hs.resolve, hus']
        exact hq
    | handling q owner caller =>
        rw [hw] at hpc
        obtain ⟨j, hj, hcaller⟩ := hpc
        refine ⟨j, hj.modifyAt hf hat, ?_⟩
        cases caller with
        | ready k => exact ⟨hcaller.1, mt (hbusy owner).mp hcaller.2⟩
        | running k => exact hcaller

/-! ## The jobs -/

theorem result?_of_feed {α : Type} {p q : Job α} {e : Event winsock} (h : p.feed e = some q) :
    p.result? = none := by
  obtain ⟨k, hk, _⟩ := (Prog.feed_eq_some (I := winsock)).mp h
  unfold Prog.result?
  rw [hk]

theorem jobReturned_eq_some {i : Nat} {e : Event winsock} (h : w.jobReturned A i e = some w') :
    ∃ t s prog, w.connectedTablets[i]? = some t ∧ t.currTrans.data = some s ∧
      s.started = true ∧ s.prog.feed e = some prog ∧
      ((∃ b, e.1 = .setSuccess b ∧ w' = ((w.modifyAt i (advance s prog)).modify A s.success
          (setFlag b)).note (.flagged (w.resolve A s.success) s.owner)) ∨
        w' = (w.modifyAt i (advance s prog)).note
          (.moved (w.resolve A s.this) s.owner (taken e.1 e.2) (given e.1 e.2))) := by
  unfold jobReturned at h
  obtain ⟨t, ht, h⟩ := Option.bind_eq_some_iff.mp h
  obtain ⟨s, hs, h⟩ := Option.bind_eq_some_iff.mp h
  split at h
  · rename_i hst
    obtain ⟨prog, hp, h⟩ := Option.bind_eq_some_iff.mp h
    refine ⟨t, s, prog, ht, hs, hst, hp, ?_⟩
    obtain ⟨c, r⟩ := e
    cases c with
    | setSuccess b => exact Or.inl ⟨b, rfl, (Option.some.inj h).symm⟩
    | _ => exact Or.inr (Option.some.inj h).symm
  · exact absurd h (by simp)

/-- A job that is under way belongs to the current code of its tablet, and points at it. -/
theorem Inv.running_job (h : Inv A w) {i : Nat} {t : BtTabObj ρ} {s : SharedState ρ}
    (ht : w.connectedTablets[i]? = some t) (hs : t.currTrans.data = some s)
    (hrun : t.jobRunning = true) : active w.pc i t ∧ s.forCode = t.codesRead ∧
      s.owner = t.serial ∧ w.resolve A s.this = some t.serial ∧
      w.resolve A s.success = some t.serial := by
  have hok := h.tablet i t ht
  have hact : active w.pc i t := by
    by_contra hna
    rw [hok.quiet hna] at hrun
    exact Bool.noConfusion hrun
  have hcode : s.forCode = t.codesRead := by
    by_contra hne
    rw [hok.stale s hs hne] at hrun
    exact Bool.noConfusion hrun
  exact ⟨hact, hcode, hok.job hact s hs hcode⟩

theorem keepsPlace_advance (s : SharedState ρ) (prog : Job (Option (List Byte) × Bool)) :
    KeepsPlace (advance s prog) := fun _ => ⟨rfl, rfl⟩

theorem Inv.job (h : Inv A w) {i : Nat} {e : Event winsock}
    (hw : w.jobReturned A i e = some w') : Inv A w' := by
  obtain ⟨t, s, prog, ht, hs, hst, hp, hw'⟩ := jobReturned_eq_some hw
  have hrun : t.jobRunning = true := by
    unfold BtTabObj.jobRunning
    rw [hs]
    simp [hst, result?_of_feed hp]
  have hok := h.tablet i t ht
  obtain ⟨hact, hcode, howner, hthis, hsuccess⟩ := h.running_job ht hs hrun
  have hok' : TabOk (w.resolve A) (active w.pc i t) (advance s prog t) := by
    refine ⟨fun hna => absurd hact hna, hok.parent, ?_, ?_, ?_, ?_⟩
    · intro _ s' hs' _
      cases Option.some.inj hs'
      exact ⟨howner, hthis, hsuccess⟩
    · intro s' hs' hne
      cases Option.some.inj hs'
      exact absurd hcode hne
    · intro s' hs'
      cases Option.some.inj hs'
      exact hok.old s hs
    · intro ha
      have hcur := hok.current ha
      rw [hs] at hcur
      exact hcur
  have hget : ∀ u : BtTabObj ρ, u.currTrans.needsGet = false →
      t.jobRunning = false → u.jobRunning = false := by
    intro u _ hf
    rw [hrun] at hf
    exact Bool.noConfusion hf
  rcases hw' with ⟨b, _, hw'⟩ | hw'
  · rw [modify_modifyAt h.serials hsuccess ht rfl (keepsPlace_advance s prog)] at hw'
    subst hw'
    refine Inv.note ?_ ⟨hsuccess.trans (congrArg some howner.symm), trivial⟩
    refine h.modifyAt ht (fun _ => ⟨rfl, rfl⟩) (fun _ => rfl) ?_ fun hn => ⟨hn, hget _ hn⟩
    exact ⟨hok'.quiet, hok'.parent, hok'.job, hok'.stale, hok'.old, hok'.current⟩
  · subst hw'
    refine Inv.note ?_ ⟨hthis.trans (congrArg some howner.symm), trivial⟩
    exact h.modifyAt ht (keepsPlace_advance s prog) (fun _ => rfl) hok' fun hn => ⟨hn, hget _ hn⟩

end Bluetooth

end ScoutComputer
