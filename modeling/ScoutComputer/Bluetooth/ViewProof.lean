import ScoutComputer.Bluetooth.Conversation
import ScoutComputer.Bluetooth.TableProof

/-!
# A step, seen from one tablet

As long as pointers are kept, what a step does to one tablet is one of a few things,
whatever the others are doing. `ViewStep` lists them.

A step changes at most one tablet, the one at the index it is about. To that one it is a
`ViewStep` of its own, to the others it is none at all, and `Inv.seen_at` asks for just
these two, so each kind of step has one lemma (`seen_job` to `seen_go`). The queue entry that
is handled leads to its own tablet by the invariant, which is the only place where the
pointers come in.
-/

namespace ScoutComputer

open Interact

/-- The job a code is given. -/
def jobOf (readWholeFile : Files) (c : TransactionType) : Option (Job (Option (List Byte) × Bool)) :=
  if 0 < c then some internalRead else (writeData readWholeFile c).map internalWrite

namespace Bluetooth

variable {ρ : Type} {A : Addressing ρ} {w w' : Bluetooth ρ}

/-- What the main thread is doing for one tablet. -/
inductive Attention where
  | away
  | polling (p : Job (Option TransactionType))
  | started
  | handling

/-- What the main thread is doing for the tablet with serial number `n`. -/
def attention (w : Bluetooth ρ) (n : Nat) : Attention :=
  match w.pc with
  | .polling i p => if w.serials[i]? = some n then .polling p else .away
  | .started i _ => if w.serials[i]? = some n then .started else .away
  | .handling _ owner _ => if owner = n then .handling else .away
  | _ => .away

/-- What matters of one tablet. -/
structure View (ρ : Type) where
  transactionState : Bool
  batmanTrans : Bool
  data : Option (SharedState ρ)
  attention : Attention

/-- Whether its job is under way. -/
def View.jobRunning (v : View ρ) : Bool :=
  match v.data with
  | none => false
  | some s => s.started && s.prog.result?.isNone

def viewOf (t : BtTabObj ρ) (a : Attention) : View ρ :=
  ⟨t.transactionState, t.currTrans.batmanTrans, t.currTrans.data, a⟩

/-- The tablet with serial number `n` is in the table and looks like `v`. -/
def Shows (w : Bluetooth ρ) (n : Nat) (v : View ρ) : Prop :=
  ∃ (i : Nat) (t : BtTabObj ρ), w.connectedTablets[i]? = some t ∧ t.serial = n ∧
    v = viewOf t (w.attention n)

/-- **What a step does to one tablet**, and the call it makes on its socket. -/
inductive ViewStep (v : View ρ) : Act → Option (Event winsock) → View ρ → Prop where
  /-- Nothing. -/
  | same {a : Act} : ViewStep v a none v
  | ask {launch : Launch} {readWholeFile : Files} : v.attention = .away →
      ViewStep v (.go launch readWholeFile) none
        { v with attention := .polling (serveTablet v.transactionState) }
  | call {p p' : Job (Option TransactionType)} {e : Event winsock} :
      v.attention = .polling p → p.feed e = some p' →
      ViewStep v (.call e) (some e) { v with attention := .polling p' }
  | pass {launch : Launch} {readWholeFile : Files} : v.attention = .polling (.ret none) →
      ViewStep v (.go launch readWholeFile) none { v with attention := .away }
  | serve {c : TransactionType} {launch : Launch} {readWholeFile : Files} {batmanTrans : Bool}
      {data : Option (SharedState ρ)} : v.attention = .polling (.ret (some c)) →
      (isGoodbye c = true → batmanTrans = true) →
      (∀ prog, jobOf readWholeFile c = some prog → ∃ s, data = some s ∧ s.prog = prog) →
      ViewStep v (.go launch readWholeFile) none
        ⟨v.transactionState, batmanTrans, data, .started⟩
  | queue {launch : Launch} {readWholeFile : Files} : v.attention = .started →
      v.batmanTrans = false →
      ViewStep v (.go launch readWholeFile) none
        { v with transactionState := true, attention := .away }
  | ready {launch : Launch} {readWholeFile : Files} : v.attention = .started →
      v.batmanTrans = false →
      ViewStep v (.go launch readWholeFile) none { v with attention := .handling }
  | due {launch : Launch} {readWholeFile : Files} : v.attention = .away →
      v.transactionState = true →
      ViewStep v (.go launch readWholeFile) none { v with attention := .handling }
  /-- `get()` waits, and a job that was deferred starts. -/
  | start {launch : Launch} {readWholeFile : Files} : v.attention = .handling →
      ViewStep v (.go launch readWholeFile) none
        { v with data := v.data.map fun s => { s with started := true } }
  | settle {launch : Launch} {readWholeFile : Files} {data : Option (SharedState ρ)} :
      v.attention = .handling → v.jobRunning = false →
      ViewStep v (.go launch readWholeFile) none ⟨false, v.batmanTrans, data, .away⟩
  | work {j : Nat} {s : SharedState ρ} {prog : Job (Option (List Byte) × Bool)}
      {e : Event winsock} : v.data = some s → s.started = true → s.prog.feed e = some prog →
      (v.transactionState = true ∨ v.attention = .started ∨ v.attention = .handling) →
      ViewStep v (.job j e) (some e) { v with data := some { s with prog } }

/-! ## The view of a tablet -/

theorem serials_get (w : Bluetooth ρ) {i : Nat} {t : BtTabObj ρ}
    (ht : w.connectedTablets[i]? = some t) : w.serials[i]? = some t.serial := by
  rw [serials, List.getElem?_map, ht]
  rfl

/-- A tablet is looked at as it is at its index. -/
theorem Shows.get (hn : w.serials.Nodup) {n i : Nat} {v : View ρ} {t : BtTabObj ρ}
    (h : Shows w n v) (ht : w.connectedTablets[i]? = some t) (hs : t.serial = n) :
    v = viewOf t (w.attention n) := by
  obtain ⟨j, u, hu, hus, hv⟩ := h
  obtain ⟨_, rfl⟩ := eq_of_serial hn ht hu (hs.trans hus.symm)
  exact hv

/-- The tablet stays as it is, and so does what the main thread does for it. -/
theorem Shows.same {n : Nat} {v : View ρ} (h : Shows w n v)
    (htab : ∀ (i : Nat) (t : BtTabObj ρ), w.connectedTablets[i]? = some t → t.serial = n →
      t ∈ w'.connectedTablets) (hatt : w'.attention n = w.attention n) : Shows w' n v := by
  obtain ⟨i, t, ht, hs, rfl⟩ := h
  obtain ⟨j, hj⟩ := List.mem_iff_getElem?.mp (htab i t ht hs)
  exact ⟨j, t, hj, hs, by rw [hatt]⟩

/-- Another tablet was changed. -/
theorem Shows.other {n i : Nat} {v : View ρ} {t : BtTabObj ρ} {f : BtTabObj ρ → BtTabObj ρ}
    (h : Shows w n v) (ht : w.connectedTablets[i]? = some t) (hne : t.serial ≠ n)
    (htab : w'.connectedTablets = (w.modifyAt i f).connectedTablets)
    (hatt : w'.attention n = w.attention n) : Shows w' n v := by
  refine h.same (fun j u hu hs => ?_) hatt
  have hij : i ≠ j := by
    rintro rfl
    rw [ht] at hu
    cases hu
    exact hne hs
  refine List.mem_of_getElem? (i := j) ?_
  rw [htab, modifyAt_get, if_neg hij, hu]

/-- The tablet itself was changed. -/
theorem shows_self {n i : Nat} {t : BtTabObj ρ} {f : BtTabObj ρ → BtTabObj ρ}
    (ht : w.connectedTablets[i]? = some t) (hs : t.serial = n) (hf : KeepsPlace f)
    (htab : w'.connectedTablets = (w.modifyAt i f).connectedTablets) :
    Shows w' n (viewOf (f t) (w'.attention n)) := by
  refine ⟨i, f t, ?_, (hf t).2.trans hs, rfl⟩
  rw [htab, modifyAt_get, if_pos rfl, ht]
  rfl

theorem attention_polling {n i : Nat} {p : Job (Option TransactionType)} {t : BtTabObj ρ}
    (hpc : w.pc = .polling i p) (ht : w.connectedTablets[i]? = some t) :
    w.attention n = if t.serial = n then .polling p else .away := by
  unfold attention
  rw [hpc]
  dsimp only
  rw [serials_get w ht]
  exact if_congr Option.some_inj rfl rfl

theorem attention_started {n i : Nat} {q : ρ} {t : BtTabObj ρ}
    (hpc : w.pc = .started i q) (ht : w.connectedTablets[i]? = some t) :
    w.attention n = if t.serial = n then .started else .away := by
  unfold attention
  rw [hpc]
  dsimp only
  rw [serials_get w ht]
  exact if_congr Option.some_inj rfl rfl

theorem attention_handling {n owner : Nat} {q : ρ} {caller : Caller}
    (hpc : w.pc = .handling q owner caller) :
    w.attention n = if owner = n then .handling else .away := by
  unfold attention
  rw [hpc]

/-- Between two tablets, the main thread attends to none. -/
theorem attention_away {n : Nat} (hpc : w.pc = .idle ∨ (∃ i, w.pc = .ready i) ∨
    ∃ i, w.pc = .running i) : w.attention n = .away := by
  unfold attention
  rcases hpc with hpc | ⟨i, hpc⟩ | ⟨i, hpc⟩
  · rw [hpc]
  · rw [hpc]
  · rw [hpc]

/-- What is known of a tablet after a step. -/
def Seen (A : Addressing ρ) (w : Bluetooth ρ) (n : Nat) (v : View ρ) (a : Act)
    (w' : Bluetooth ρ) : Prop :=
  w'.pc = .crashed ∨ n ∉ w'.serials ∨ ∃ v', Shows w' n v' ∧ ViewStep v a (w.onSocket A n a) v'

theorem Seen.same {n : Nat} {v : View ρ} {a : Act} (hv : Shows w' n v)
    (hs : w.onSocket A n a = none) : Seen A w n v a w' :=
  Or.inr (Or.inr ⟨v, hv, hs ▸ .same⟩)

theorem Seen.step {n : Nat} {v v' : View ρ} {a : Act} (hv : Shows w' n v')
    (hs : ViewStep v a (w.onSocket A n a) v') : Seen A w n v a w' := Or.inr (Or.inr ⟨v', hv, hs⟩)

/-- The tablet at index `i` is changed by `f`; to the others the step is nothing. -/
theorem Inv.seen_at (h : Inv A w) {n i : Nat} {v : View ρ} {t : BtTabObj ρ} {a : Act}
    {f : BtTabObj ρ → BtTabObj ρ} {x : Option (Event winsock)} (hv : Shows w n v)
    (ht : w.connectedTablets[i]? = some t) (hf : KeepsPlace f)
    (htab : w'.connectedTablets = (w.modifyAt i f).connectedTablets)
    (hsocket : w.onSocket A n a = if t.serial = n then x else none)
    (hother : t.serial ≠ n → w'.attention n = w.attention n)
    (hself : t.serial = n →
      ViewStep (viewOf t (w.attention n)) a x (viewOf (f t) (w'.attention n))) :
    Seen A w n v a w' := by
  by_cases hn : t.serial = n
  · rw [if_pos hn] at hsocket
    rw [hv.get h.serials ht hn]
    refine .step (shows_self ht hn hf htab) ?_
    rw [hsocket]
    exact hself hn
  · rw [if_neg hn] at hsocket
    exact .same (hv.other ht hn htab (hother hn)) hsocket

/-- Only what the main thread does for the tablet at index `i` changes. -/
theorem Inv.seen_still (h : Inv A w) {n i : Nat} {v : View ρ} {t : BtTabObj ρ} {a : Act}
    {x : Option (Event winsock)} (hv : Shows w n v) (ht : w.connectedTablets[i]? = some t)
    (htab : w'.connectedTablets = w.connectedTablets)
    (hsocket : w.onSocket A n a = if t.serial = n then x else none)
    (hother : t.serial ≠ n → w'.attention n = w.attention n)
    (hself : t.serial = n →
      ViewStep (viewOf t (w.attention n)) a x (viewOf t (w'.attention n))) :
    Seen A w n v a w' := by
  refine h.seen_at (f := id) hv ht (fun _ => ⟨rfl, rfl⟩) ?_ hsocket hother hself
  rw [htab, Bluetooth.modifyAt, List.modify_id]

/-! ## The jobs -/

/-- There are pointers to a tablet only while it is attended to or undergoing a transaction. -/
theorem Inv.attention_of_active (h : Inv A w) {n i : Nat} {t : BtTabObj ρ}
    (ht : w.connectedTablets[i]? = some t) (hn : t.serial = n) (hact : active w.pc i t) :
    t.transactionState = true ∨ w.attention n = .started ∨ w.attention n = .handling := by
  refine hact.imp_right fun hfocus => ?_
  have hpcok := h.pc
  cases hpc : w.pc with
  | started j q =>
      rw [hpc] at hfocus
      cases hfocus
      rw [attention_started hpc ht, if_pos hn]
      exact Or.inl rfl
  | handling q owner caller =>
      rw [hpc] at hfocus hpcok
      cases caller with
      | running j => exact absurd hfocus (by simp [Pc.focus])
      | ready j =>
          cases hfocus
          obtain ⟨k, ⟨u, hu, hus, _⟩, rfl, _⟩ := hpcok
          rw [ht] at hu
          cases hu
          rw [attention_handling hpc, if_pos (hus.symm.trans hn)]
          exact Or.inr rfl
  | idle =>
      rw [hpc] at hfocus
      exact absurd hfocus (by simp [Pc.focus])
  | ready j =>
      rw [hpc] at hfocus
      exact absurd hfocus (by simp [Pc.focus])
  | polling j p =>
      rw [hpc] at hfocus
      exact absurd hfocus (by simp [Pc.focus])
  | running j =>
      rw [hpc] at hfocus
      exact absurd hfocus (by simp [Pc.focus])
  | crashed =>
      rw [hpc] at hfocus
      exact absurd hfocus (by simp [Pc.focus])

theorem Inv.seen_job (h : Inv A w) {n i : Nat} {v : View ρ} {e : Event winsock}
    (hv : Shows w n v) (hw : w.jobReturned A i e = some w') : Seen A w n v (.job i e) w' := by
  obtain ⟨t, s, prog, ht, hs, hst, hp, hw'⟩ := jobReturned_eq_some hw
  have hrun : t.jobRunning = true := by
    unfold BtTabObj.jobRunning
    rw [hs]
    simp [hst, result?_of_feed hp]
  obtain ⟨hact, _, _, hthis, hsuccess⟩ := h.running_job ht hs hrun
  have hsocket : w.onSocket A n (.job i e) = if t.serial = n then some e else none := by
    unfold onSocket
    dsimp only
    rw [ht, Option.bind_some, hs]
    dsimp only
    rw [hthis]
    exact if_congr Option.some_inj rfl rfl
  -- all that changes is the tablet at index `i`
  have hchange : ∃ f : BtTabObj ρ → BtTabObj ρ, KeepsPlace f ∧
      (∀ a, viewOf (f t) a = ⟨t.transactionState, t.currTrans.batmanTrans,
        some { s with prog }, a⟩) ∧
      w'.connectedTablets = (w.modifyAt i f).connectedTablets ∧ w'.attention n = w.attention n := by
    have hatt : ∀ f : BtTabObj ρ → BtTabObj ρ, KeepsPlace f →
        (w.modifyAt i f).attention n = w.attention n := by
      intro f hf
      have hserials := (sameTable_modifyAt hf w i).serials
      have hpc : (w.modifyAt i f).pc = w.pc := rfl
      unfold attention
      rw [hserials, hpc]
    rcases hw' with ⟨b, _, rfl⟩ | rfl
    · have hplace : KeepsPlace (setFlag b ∘ advance s prog) := fun _ => ⟨rfl, rfl⟩
      rw [modify_modifyAt h.serials hsuccess ht rfl (keepsPlace_advance s prog)]
      exact ⟨setFlag b ∘ advance s prog, hplace, fun _ => rfl, rfl, hatt _ hplace⟩
    · exact ⟨advance s prog, keepsPlace_advance s prog, fun _ => rfl, rfl,
        hatt _ (keepsPlace_advance s prog)⟩
  obtain ⟨f, hf, hview, htab, hatt⟩ := hchange
  refine h.seen_at hv ht hf htab hsocket (fun _ => hatt) fun hn => ?_
  rw [hview, hatt]
  exact .work hs hst hp (h.attention_of_active ht hn hact)

/-! ## The main thread -/

theorem Inv.seen_call (h : Inv A w) {n : Nat} {v : View ρ} {e : Event winsock}
    (hv : Shows w n v) (hw : w.callReturned e = some w') : Seen A w n v (.call e) w' := by
  unfold Bluetooth.callReturned at hw
  split at hw
  · rename_i i p hpc
    split at hw
    · rename_i p' t hp ht
      have hatt := attention_polling (n := n) hpc ht
      have hsocket : w.onSocket A n (.call e) = if t.serial = n then some e else none := by
        unfold onSocket
        dsimp only
        rw [hpc]
        dsimp only
        rw [serials_get w ht]
        exact if_congr Option.some_inj rfl rfl
      have hw' : w'.connectedTablets = w.connectedTablets ∧ w'.pc = .polling i p' := by
        split at hw
        · cases hw
          exact ⟨rfl, rfl⟩
        · cases hw
          exact ⟨rfl, rfl⟩
      obtain ⟨htab, hpc'⟩ := hw'
      have ht' : w'.connectedTablets[i]? = some t := htab ▸ ht
      have hatt' := attention_polling (n := n) hpc' ht'
      refine h.seen_still hv ht htab hsocket (fun hn => ?_) fun hn => ?_
      · rw [hatt, hatt', if_neg hn, if_neg hn]
      · rw [hatt, hatt', if_pos hn, if_pos hn]
        exact .call rfl hp
    · exact absurd hw (by simp)
  · exact absurd hw (by simp)

/-- What serving a tablet leaves of it. -/
theorem viewOf_serve (self : ρ) (launch : Launch) (readWholeFile : Files) (c : TransactionType)
    (t : BtTabObj ρ) (a : Attention) : ∃ batmanTrans data,
    viewOf (Bluetooth.serve self launch readWholeFile c t) a =
        ⟨t.transactionState, batmanTrans, data, a⟩ ∧
      (isGoodbye c = true → batmanTrans = true) ∧
      ∀ prog, jobOf readWholeFile c = some prog → ∃ s, data = some s ∧ s.prog = prog := by
  refine ⟨_, _, rfl, fun hbye => ?_, fun prog hprog => ?_⟩
  · have htype : ∀ trans : TabTransaction ρ, (trans.read self c).transactionType = c := fun _ => rfl
    unfold Bluetooth.serve initReadyTransaction
    rw [htype, if_pos]
    unfold isGoodbye at hbye
    exact ((Bool.or_eq_true _ _).mp hbye).imp of_decide_eq_true of_decide_eq_true
  · unfold jobOf at hprog
    by_cases hpos : 0 < c
    · rw [if_pos hpos] at hprog
      cases hprog
      unfold Bluetooth.serve
      rw [initReadyTransaction_of_pos self self launch readWholeFile t.serial (t.codesRead + 1)
        t.currTrans hpos]
      exact ⟨_, rfl, rfl⟩
    · rw [if_neg hpos] at hprog
      obtain ⟨data, hdata, rfl⟩ := Option.map_eq_some_iff.mp hprog
      -- the two codes for which there is something to write
      unfold writeData at hdata
      split at hdata
      · rename_i hdb
        subst hdb
        cases hdata
        exact ⟨_, rfl, rfl⟩
      · split at hdata
        · rename_i hhash
          subst hhash
          cases hdata
          exact ⟨_, rfl, rfl⟩
        · exact absurd hdata (by simp)

theorem Inv.seen_polled (h : Inv A w) {n i : Nat} {v : View ρ} {p : Job (Option TransactionType)}
    {launch : Launch} {readWholeFile : Files} (hpc : w.pc = .polling i p) (hv : Shows w n v)
    {r : Option TransactionType} (hr : p.result? = some r)
    (hw : w.polled A launch readWholeFile i r = some w') :
    Seen A w n v (.go launch readWholeFile) w' := by
  have hpcok := h.pc
  rw [hpc] at hpcok
  obtain ⟨t, ht, _⟩ := hpcok
  have hatt := attention_polling (n := n) hpc ht
  have hp : p = .ret r := Prog.result?_eq_some.mp hr
  subst hp
  cases r with
  | none =>
      cases hw
      have hatt' : (w.goto (.ready (i + 1))).attention n = .away :=
        attention_away (Or.inr (Or.inl ⟨i + 1, rfl⟩))
      refine h.seen_still hv ht rfl (ite_self none).symm (fun hn => ?_) fun hn => ?_
      · rw [hatt, hatt', if_neg hn]
      · rw [hatt, hatt', if_pos hn]
        exact .pass rfl
  | some c =>
      obtain ⟨t', ht', _, rfl⟩ := polled_some hw
      rw [ht] at ht'
      cases ht'
      have hplace := keepsPlace_serve (w.pointer A i) launch readWholeFile c
      have hget := modifyAt_get w i (Bluetooth.serve (w.pointer A i) launch readWholeFile c) i
      rw [if_pos rfl, ht] at hget
      have hatt' : ((w.modifyAt i (Bluetooth.serve (w.pointer A i) launch readWholeFile
          c)).goto (.started i (w.pointer A i))).attention n =
          if t.serial = n then .started else .away :=
        attention_started (t := Bluetooth.serve (w.pointer A i) launch readWholeFile c t) rfl hget
      refine h.seen_at hv ht hplace rfl (ite_self none).symm (fun hn => ?_) fun hn => ?_
      · rw [hatt, hatt', if_neg hn, if_neg hn]
      · rw [hatt, hatt', if_pos hn, if_pos hn]
        obtain ⟨batmanTrans, data, hview, hbye, hjob⟩ := viewOf_serve (w.pointer A i) launch
          readWholeFile c t .started
        rw [hview]
        exact .serve rfl hbye hjob

theorem not_mem_serials_erase (hn : w.serials.Nodup) {i : Nat} {t : BtTabObj ρ}
    (ht : w.connectedTablets[i]? = some t) :
    t.serial ∉ (w.connectedTablets.eraseIdx i).map (·.serial) := by
  rw [← List.eraseIdx_map]
  intro hm
  exact ((Lists.mem_eraseIdx_of_nodup hn (serials_get w ht) t.serial).mp hm).2 rfl

/-- Who is not erased stays. -/
theorem mem_erase_of_ne {n i j : Nat} {t u : BtTabObj ρ} (ht : w.connectedTablets[i]? = some t)
    (hne : t.serial ≠ n) (hu : w.connectedTablets[j]? = some u) (hus : u.serial = n) :
    u ∈ w.connectedTablets.eraseIdx i := by
  refine List.mem_eraseIdx_iff_getElem?.mpr ⟨j, ?_, hu⟩
  rintro rfl
  rw [ht] at hu
  cases hu
  exact hne hus

theorem Inv.seen_started (h : Inv A w) {n i : Nat} {v : View ρ} {q : ρ} {launch : Launch}
    {readWholeFile : Files} (hpc : w.pc = .started i q) (hv : Shows w n v)
    (hw : w.startedTrans A i q = some w') : Seen A w n v (.go launch readWholeFile) w' := by
  have hpcok := h.pc
  rw [hpc] at hpcok
  obtain ⟨t, ht, hfree, hq⟩ := hpcok
  obtain ⟨parent, hparent, hres⟩ := (h.tablet i t ht).parent (Or.inr (by rw [hpc]; rfl))
  have hderef := (deref_of_resolve h.serials hq ht rfl).2
  have hatt := attention_started (n := n) hpc ht
  cases hbatman : t.currTrans.batmanTrans with
  | true =>
      obtain ⟨_, _, _, _, rfl⟩ := h.startedTrans_goodbye hpc hderef hbatman hw
      by_cases hn : t.serial = n
      · subst hn
        exact Or.inr (Or.inl (not_mem_serials_erase h.serials ht))
      · rw [if_neg hn] at hatt
        refine .same (hv.same (fun j u hu hus => mem_erase_of_ne ht hn hu hus) ?_) rfl
        exact (attention_away (Or.inr (Or.inl ⟨i + 1, rfl⟩))).trans hatt.symm
  | false =>
      have hindex := (deref_of_resolve h.serials hres ht rfl).1
      rcases startedTrans_stays hderef hbatman hparent hindex hw with rfl | ⟨_, rfl⟩ | rfl
      · exact Or.inl rfl
      · have hatt' : (((w.consult t).goto (.handling q t.serial (.ready i))).attention n) =
            if t.serial = n then .handling else .away := attention_handling rfl
        refine h.seen_still hv ht rfl (ite_self none).symm (fun hn => ?_) fun hn => ?_
        · rw [hatt, hatt', if_neg hn, if_neg hn]
        · rw [hatt, hatt', if_pos hn, if_pos hn]
          exact .ready rfl hbatman
      · have hatt' : ((((w.consult t).push ⟨q, t.serial⟩).modifyAt i
            (setTransactionState true)).goto (.ready (i + 1))).attention n = .away :=
          attention_away (Or.inr (Or.inl ⟨i + 1, rfl⟩))
        refine h.seen_at (f := setTransactionState true) hv ht (fun _ => ⟨rfl, rfl⟩) rfl
          (ite_self none).symm (fun hn => ?_) fun hn => ?_
        · rw [hatt, hatt', if_neg hn]
        · rw [hatt, hatt', if_pos hn]
          exact .queue rfl hbatman

/-- A result that is needed is there. -/
theorem jobRunning_of_handled {parse : List Byte → Option Json} {t : BtTabObj ρ} {r : Handled ρ}
    (hr : handleTransResult parse t.currTrans = .ok r) (hneeds : t.currTrans.needsGet = true) :
    t.jobRunning = false := by
  unfold BtTabObj.jobRunning
  cases hdata : t.currTrans.data with
  | none => rfl
  | some s =>
      dsimp only
      cases hres : s.prog.result? with
      | some v => rw [Option.isNone_some, Bool.and_false]
      | none =>
          have hget : t.currTrans.get = .error .waiting := by
            unfold TabTransaction.get
            rw [hdata]
            dsimp only
            rw [hres]
          unfold TabTransaction.needsGet at hneeds
          obtain ⟨hread, htype⟩ := (Bool.and_eq_true _ _).mp hneeds
          have hread : t.currTrans.writeTransaction = false := by simpa using hread
          unfold handleTransResult at hr
          rw [if_neg (by rw [hread]; exact Bool.false_ne_true), hget] at hr
          rcases (Bool.or_eq_true _ _).mp htype with htype | htype
          · rw [if_pos (of_decide_eq_true htype)] at hr
            exact absurd hr (by simp [bind, Except.bind])
          · rw [if_neg (by rw [of_decide_eq_true htype]; decide),
              if_pos (of_decide_eq_true htype)] at hr
            exact absurd hr (by simp [bind, Except.bind])

theorem Inv.seen_handle (h : Inv A w) {n : Nat} {v : View ρ} {parse : List Byte → Option Json}
    {q : ρ} {owner : Nat} {caller : Caller} {launch : Launch} {readWholeFile : Files}
    (hpc : w.pc = .handling q owner caller) (hv : Shows w n v)
    (hw : w.handle A parse q owner caller = some w') :
    Seen A w n v (.go launch readWholeFile) w' := by
  have hpcok := h.pc
  rw [hpc] at hpcok
  obtain ⟨j, ⟨t, ht, rfl, hq, hstop⟩, hcaller⟩ := hpcok
  have hderef := (deref_of_resolve h.serials hq ht rfl).2
  have hatt := attention_handling (n := n) hpc
  have hact := h.active_of_handling hpc ht rfl
  obtain ⟨p, hparent, hp⟩ := (h.tablet j t ht).parent hact
  rcases handle_cases hw with ⟨_, rfl⟩ | ⟨t', w₁, hderef', hconsult, hcase⟩
  · exact Or.inl rfl
  rw [hderef] at hderef'
  cases hderef'
  obtain ⟨es, rfl⟩ := eq_of_consulted hconsult
  rcases hcase with ⟨_, _, rfl⟩ | rfl | ⟨r, hr, rfl⟩
  · rw [modify_of_resolve (w := { w with log := w.log ++ es }) h.serials hq ht rfl]
    have hatt' : ({ w with log := w.log ++ es }.modifyAt j start).attention n =
        if t.serial = n then .handling else .away := attention_handling hpc
    refine h.seen_at (f := start) hv ht (fun _ => ⟨rfl, rfl⟩) rfl (ite_self none).symm
      (fun hn => ?_) fun hn => ?_
    · rw [hatt, hatt']
    · rw [hatt, hatt', if_pos hn]
      exact .start rfl
  · exact Or.inl rfl
  · have hrest : r.trans.parent = some p ∧ t.jobRunning = false ∧
        r.trans.batmanTrans = t.currTrans.batmanTrans := by
      rcases handleTransResult_ok hr with ⟨hget, htrans⟩ | ⟨hget, htrans⟩
      · rw [htrans]
        exact ⟨hparent, hstop hget, rfl⟩
      · rw [htrans]
        exact ⟨hparent, jobRunning_of_handled hr hget, rfl⟩
    obtain ⟨hparent', hstop', hbat⟩ := hrest
    obtain ⟨log, _, hhandled⟩ := handled_eq (w := { w with log := w.log ++ es }) h.serials ht hq
      hparent' hp caller
    rw [hhandled]
    -- from either loop, the tablet is left free
    have hsettles : ∀ {f : BtTabObj ρ → BtTabObj ρ} {w₁ : Bluetooth ρ}, KeepsPlace f →
        w₁.connectedTablets = (w.modifyAt j f).connectedTablets → w₁.attention n = .away →
        viewOf (f t) .away = ⟨false, t.currTrans.batmanTrans, r.trans.data, .away⟩ →
        Seen A w n v (.go launch readWholeFile) w₁ := by
      intro f w₁ hf htab hatt' hview
      refine h.seen_at hv ht hf htab (ite_self none).symm (fun hn => ?_) fun hn => ?_
      · rw [hatt, hatt', if_neg hn]
      · rw [hatt, hatt', if_pos hn, hview]
        exact .settle rfl hstop'
    cases caller with
    | ready i =>
        -- it was not in the queue, so it was free before
        have hfree : t.transactionState = false := by
          have hno := hcaller.2
          rw [busy_serial h.serials ht] at hno
          exact Bool.eq_false_iff.mpr hno
        refine hsettles (keepsPlace_settle r) rfl
          (attention_away (Or.inr (Or.inl ⟨i + 1, rfl⟩))) ?_
        rw [← hfree, ← hbat]
        rfl
    | running i =>
        refine hsettles (f := setTransactionState false ∘ settle r) (fun _ => ⟨rfl, rfl⟩) rfl
          (attention_away (Or.inr (Or.inr ⟨i + 1, rfl⟩))) ?_
        rw [← hbat]
        rfl

theorem Inv.seen_running (h : Inv A w) {n i : Nat} {v : View ρ} {launch : Launch}
    {readWholeFile : Files} (hpc : w.pc = .running i) (hv : Shows w n v) :
    Seen A w n v (.go launch readWholeFile) (w.checkRunning A i) := by
  have hatt : w.attention n = .away := attention_away (Or.inr (Or.inr ⟨i, hpc⟩))
  have hsame : ∀ w₁ : Bluetooth ρ, w₁.connectedTablets = w.connectedTablets →
      w₁.attention n = .away → Seen A w n v (.go launch readWholeFile) w₁ := by
    intro w₁ htab hatt'
    refine .same (hv.same (fun j u hu _ => ?_) (hatt'.trans hatt.symm)) rfl
    rw [htab]
    exact List.mem_of_getElem? hu
  unfold Bluetooth.checkRunning
  cases he : w.runningTransactions[i]? with
  | none => exact hsame _ rfl (attention_away (Or.inl rfl))
  | some e =>
      have hres := h.entry e (List.mem_of_getElem? he)
      obtain ⟨j, t, _, ht, hts⟩ := exists_of_resolve hres
      have hm := List.mem_map_of_mem (f := (·.owner)) (List.mem_of_getElem? he)
      have hbusy : t.transactionState = true := by
        rw [← hts] at hm
        exact (busy_serial h.serials ht).mp ((h.busy _).mp hm)
      dsimp only
      rw [(deref_of_resolve h.serials hres ht hts).2]
      dsimp only
      cases t.currTrans.isReady with
      | none => exact Or.inl rfl
      | some b =>
          cases b with
          | false => exact hsame _ rfl (attention_away (Or.inr (Or.inr ⟨i + 1, rfl⟩)))
          | true =>
              have hatt' : ((w.consult t).goto (.handling e.trans e.owner
                  (.running i))).attention n = if e.owner = n then .handling else .away :=
                attention_handling rfl
              dsimp only
              refine h.seen_still hv ht rfl (ite_self none).symm (fun hn => ?_) fun hn => ?_
              · rw [hatt, hatt', if_neg (hts ▸ hn)]
              · rw [hatt, hatt', if_pos (hts.symm.trans hn)]
                exact .due rfl hbusy

/-! ## Tablets come and go -/

theorem Inv.seen_go (h : Inv A w) {n : Nat} {v : View ρ} {parse : List Byte → Option Json}
    {launch : Launch} {readWholeFile : Files} (hv : Shows w n v)
    (hw : w.go A parse launch readWholeFile = some w') :
    Seen A w n v (.go launch readWholeFile) w' := by
  unfold Bluetooth.go at hw
  split at hw
  · rename_i i hpc
    have hatt : w.attention n = .away := attention_away (Or.inr (Or.inl ⟨i, hpc⟩))
    split at hw
    · cases hw
      refine .same (hv.same (fun j u hu _ => List.mem_of_getElem? hu) ?_) rfl
      exact (attention_away (Or.inr (Or.inr ⟨0, rfl⟩))).trans hatt.symm
    · rename_i t ht
      cases hw
      have hatt' : (w.goto (.polling i (serveTablet t.transactionState))).attention n =
          if t.serial = n then .polling (serveTablet t.transactionState) else .away :=
        attention_polling rfl ht
      refine h.seen_still hv ht rfl (ite_self none).symm (fun hn => ?_) fun hn => ?_
      · rw [hatt, hatt', if_neg hn]
      · rw [hatt, hatt', if_pos hn]
        exact .ask rfl
  · rename_i i p hpc
    obtain ⟨r, hr, hw⟩ := Option.bind_eq_some_iff.mp hw
    exact h.seen_polled hpc hv hr hw
  · rename_i i q hpc
    exact h.seen_started hpc hv hw
  · rename_i q owner caller hpc
    exact h.seen_handle hpc hv hw
  · rename_i i hpc
    cases hw
    exact h.seen_running hpc hv
  · exact absurd hw (by simp)
  · exact absurd hw (by simp)

/-- **Every step** is one of `ViewStep` to a tablet that stays, unless the program crashes. -/
theorem Inv.seen (h : Inv A w) {n : Nat} {v : View ρ} {parse : List Byte → Option Json} {a : Act}
    (hv : Shows w n v) (hw : w.act A parse a = some w') : Seen A w n v a w' := by
  unfold Bluetooth.act at hw
  cases a with
  | updateAllBt peer grow =>
      dsimp only at hw
      split at hw
      · rename_i hpc
        obtain ⟨w₁, hw₁, rfl⟩ := Option.map_eq_some_iff.mp hw
        refine .same (hv.same (fun j u hu _ => ?_) ?_) rfl
        · cases peer with
          | none =>
              cases hw₁
              exact List.mem_of_getElem? hu
          | some peer =>
              obtain ⟨_, htab, _⟩ := acceptConn_eq_some hw₁
              show u ∈ w₁.connectedTablets
              rw [htab]
              exact List.mem_append_left _ (List.mem_of_getElem? hu)
        · exact (attention_away (Or.inr (Or.inl ⟨0, rfl⟩))).trans (attention_away (Or.inl hpc)).symm
      · exact absurd hw (by simp)
  | call e => exact h.seen_call hv hw
  | go launch readWholeFile => exact h.seen_go hv hw
  | job i e =>
      dsimp only at hw
      split at hw
      · exact absurd hw (by simp)
      · exact h.seen_job hv hw
  | killSocket deleteSock =>
      dsimp only at hw
      split at hw
      · rename_i hpc
        rcases killSocket_eq_some hw with ⟨_, rfl⟩ | ⟨i, t, _, ht, _, rfl⟩
        · exact .same hv rfl
        · -- Either it leaves itself, or it is found again at another index.
          by_cases hn : t.serial = n
          · subst hn
            exact Or.inr (Or.inl (not_mem_serials_erase h.serials ht))
          · have hatt' : ({ w with connectedTablets := w.connectedTablets.eraseIdx i }.note
                (.closed t.serial)).attention n = .away := attention_away (Or.inl hpc)
            refine .same (hv.same (fun j u hu hus => mem_erase_of_ne ht hn hu hus) ?_) rfl
            exact hatt'.trans (attention_away (Or.inl hpc)).symm
      · exact absurd hw (by simp)
  | killAllSockets =>
      dsimp only at hw
      split at hw
      · unfold Bluetooth.killAllSockets at hw
        split at hw
        · exact absurd hw (by simp)
        · cases hw
          exact Or.inr (Or.inl List.not_mem_nil)
      · exact absurd hw (by simp)

/-- A step has nothing to do with a tablet that is not in the table. -/
theorem onSocket_of_absent {n : Nat} (hn : n ∉ w.serials) (a : Act) :
    w.onSocket A n a = none := by
  unfold onSocket
  cases a with
  | call e =>
      dsimp only
      split
      · split
        · rename_i hi
          exact absurd (List.mem_of_getElem? hi) hn
        · rfl
      · rfl
  | job i e =>
      dsimp only
      split
      · split
        · rename_i hres
          obtain ⟨j, t, _, ht, hts⟩ := exists_of_resolve hres
          exact absurd (hts ▸ List.mem_map_of_mem (List.mem_of_getElem? ht)) hn
        · rfl
      · rfl
  | _ => rfl

/-- A tablet that was just accepted. -/
def newcomer : View ρ := ⟨false, false, none, .away⟩

/-- Only the next tablet can join, and nobody comes back. -/
theorem TableInv.absent (h : TableInv A w) {a : Act} (hs : TableStep A w a w') {n : Nat}
    (hn : n ∉ w.serials) : w.accepted ≤ w'.accepted ∧
      (n ∉ w'.serials ∧ (w.accepted ≤ n → w'.accepted ≤ n) ∨ n = w.accepted ∧ Shows w' n newcomer) := by
  have hquiet : ∀ {w₁ : Bluetooth ρ}, Quiet w w₁ → w.accepted ≤ w₁.accepted ∧
      (n ∉ w₁.serials ∧ (w.accepted ≤ n → w₁.accepted ≤ n) ∨
        n = w.accepted ∧ Shows w₁ n newcomer) := by
    intro w₁ hq
    rw [hq.accepted, hq.serials]
    exact ⟨Nat.le_refl _, Or.inl ⟨hn, id⟩⟩
  have herase : ∀ i, n ∉ (w.connectedTablets.eraseIdx i).map (·.serial) := by
    intro i hm
    rw [← List.eraseIdx_map] at hm
    exact hn (List.mem_of_mem_eraseIdx hm)
  cases hs with
  | nobody _ => exact hquiet (still_goto w _).toQuiet
  | @accept socket mac grow w₁ _ hw₁ =>
      obtain ⟨_, htab, _, hserials, hacc, _⟩ := acceptConn_eq_some hw₁
      have hle : w.accepted ≤ w₁.accepted := by omega
      refine ⟨hle, ?_⟩
      -- a tablet joins; only the next number is new
      by_cases heq : n = w.accepted
      · refine Or.inr ⟨heq, w.connectedTablets.length, .ofSocket w.accepted socket mac, ?_,
          heq.symm, ?_⟩
        · show w₁.connectedTablets[_]? = _
          rw [htab]
          exact List.getElem?_concat_length
        · rw [attention_away (w := w₁.goto (.ready 0)) (Or.inr (Or.inl ⟨0, rfl⟩))]
          rfl
      · refine Or.inl ⟨?_, fun hle => ?_⟩
        · show n ∉ w₁.serials
          rw [hserials, List.mem_append, List.mem_singleton]
          exact not_or.mpr ⟨hn, heq⟩
        · show w₁.accepted ≤ n
          rw [hacc]
          omega
  | kill _ hw =>
      rcases killSocket_eq_some hw with ⟨_, rfl⟩ | ⟨i, t, _, _, _, rfl⟩
      · exact hquiet (.refl _)
      · exact ⟨Nat.le_refl _, Or.inl ⟨herase i, id⟩⟩
  | killAll _ hw =>
      unfold Bluetooth.killAllSockets at hw
      split at hw
      · exact absurd hw (by simp)
      · cases hw
        exact ⟨Nat.le_refl _, Or.inl ⟨List.not_mem_nil, id⟩⟩
  | job _ hstill _ => exact hquiet hstill.toQuiet
  | ask _ _ => exact hquiet (still_goto w _).toQuiet
  | readyDone _ _ => exact hquiet (still_goto w _).toQuiet
  | call _ _ _ =>
      split
      · exact ⟨Nat.le_refl _, Or.inl ⟨hn, id⟩⟩
      · exact hquiet (still_goto w _).toQuiet
  | pass _ _ => exact hquiet (still_goto w _).toQuiet
  | @serve i p c t launch readWholeFile _ _ _ =>
      have hst := sameTable_modifyAt (keepsPlace_serve (w.pointer A i) launch readWholeFile c) w i
      refine ⟨Nat.le_refl _, Or.inl ⟨?_, id⟩⟩
      show n ∉ (w.modifyAt i _).serials
      rw [hst.serials]
      exact hn
  | @goodbye i q t _ _ _ _ _ => exact ⟨Nat.le_refl _, Or.inl ⟨herase i, id⟩⟩
  | queue _ _ _ hq _ _ => exact hquiet hq
  | result _ _ _ hstill _ => exact hquiet hstill.toQuiet
  | handleReady _ hstill _ => exact hquiet hstill.toQuiet
  | running _ hq _ => exact hquiet hq

end Bluetooth

end ScoutComputer
