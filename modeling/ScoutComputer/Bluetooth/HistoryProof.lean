import ScoutComputer.Bluetooth.SlotProof
import ScoutComputer.Bluetooth.TableProof
import ScoutComputer.Lib.EraseLoop

/-!
# The table is the tablets that came and were not removed

`History` runs next to the server and writes down who was accepted, whom the operations
are there to remove, and what `readTransactionData` has reported in the current call of
`updateAllBt`. Who is to be removed is said without looking at what a step does to the
table (`History.removed`): the tablet with the handle by `killSocket`, all of them by
`killAllSockets`, and in a pass the one that has just reported a goodbye.

One step takes out of the table whom it is to remove and nobody else (`mem_removed`); that
the table is always what the record says is carried from there through every run. For a
pass this needs that the flag `batmanTrans` of the tablet in hand says what its last report
said, which is part of the invariant.
-/

namespace ScoutComputer.Bluetooth

open Interact EraseLoop

/-- The server with a record of who came and went. -/
structure History (ρ : Type) where
  world : Bluetooth ρ
  /-- The tablets that were accepted. -/
  joined : List Identity
  /-- The serial numbers of those that were to be removed. -/
  left : List Nat
  /-- The reports of `readTransactionData` in the current call of `updateAllBt`. -/
  reported : List (Nat × TransactionType)

variable {ρ : Type} {A : Addressing ρ} {w w' : Bluetooth ρ}

/-- Whom a step accepts. -/
def arrivals (w : Bluetooth ρ) : Act → List Identity
  | .updateAllBt (some (socket, mac)) _ => [⟨w.accepted, socket, mac⟩]
  | _ => []

/-- What `readTransactionData` reports when its call returns in a step. -/
def reading (w : Bluetooth ρ) : Act → List (Nat × TransactionType)
  | .go _ _ =>
      match w.pc with
      | .polling i p =>
          match p.result?, w.connectedTablets[i]? with
          | some (some c), some t => [(t.serial, c)]
          | _, _ => []
      | _ => []
  | _ => []

/-- The reports that are still about the current call of `updateAllBt`. -/
def History.current (h : History ρ) : Act → List (Nat × TransactionType)
  | .updateAllBt _ _ => []
  | _ => h.reported

/--
Whom a step is to remove: `killSocket` the tablet with the handle, `killAllSockets` all
there are, and a pass the tablet that has just been read, if it said goodbye.
-/
def History.removed (h : History ρ) : Act → List Nat
  | .killSocket deleteSock =>
      (h.world.connectedTablets.filter (·.socket = deleteSock)).map (·.serial)
  | .killAllSockets => h.world.serials
  | .go _ _ =>
      match h.world.pc, h.reported.getLast? with
      | .started _ _, some (serial, c) => if isGoodbye c then [serial] else []
      | _, _ => []
  | _ => []

def History.init : History ρ := ⟨.init, [], [], []⟩

def History.step (A : Addressing ρ) (parse : List Byte → Option Json) (h : History ρ) (a : Act) :
    Option (History ρ) :=
  (h.world.act A parse a).map fun w' =>
    { world := w'
      joined := h.joined ++ arrivals h.world a
      left := h.left ++ h.removed a
      reported := h.current a ++ reading h.world a }

/-! ## One step -/

theorem identities_serve (w : Bluetooth ρ) (i : Nat) (self : ρ) (launch : Launch)
    (readWholeFile : Files) (c : TransactionType) (pc : Pc ρ) :
    ((w.modifyAt i (serve self launch readWholeFile c)).goto pc).identities = w.identities :=
  Lists.map_modify_of_eq (g := BtTabObj.identity) (f := serve self launch readWholeFile c)
    (fun _ => rfl) _ _

/-- Who is in the table after a step: those who were, less those who leave, or one more. -/
theorem TableStep.identities {a : Act} (hs : TableStep A w a w') :
    arrivals w a = [] ∧ w'.accepted = w.accepted ∧ w'.identities.Sublist w.identities ∨
      ∃ new, arrivals w a = [new] ∧ new.serial = w.accepted ∧ w'.accepted = w.accepted + 1 ∧
        w'.identities = w.identities ++ [new] := by
  have hquiet : ∀ {w' : Bluetooth ρ}, Quiet w w' →
      w'.accepted = w.accepted ∧ w'.identities.Sublist w.identities :=
    fun hq => ⟨hq.accepted, hq.identities ▸ List.Sublist.refl _⟩
  have herase : ∀ i, ((w.connectedTablets.eraseIdx i).map (·.identity)).Sublist w.identities :=
    fun i => (List.eraseIdx_sublist _ i).map _
  cases hs with
  | nobody hpc => exact Or.inl ⟨rfl, hquiet (still_goto w _).toQuiet⟩
  | accept hpc hw =>
      obtain ⟨_, htab, _, _, hacc, _, _, _⟩ := acceptConn_eq_some hw
      refine Or.inr ⟨_, rfl, rfl, hacc, ?_⟩
      show (List.map _ _) = _
      rw [Bluetooth.goto, htab, List.map_append]
      rfl
  | kill hpc hw =>
      rcases killSocket_eq_some hw with ⟨_, rfl⟩ | ⟨i, t, _, _, _, rfl⟩
      · exact Or.inl ⟨rfl, hquiet (.refl w')⟩
      · exact Or.inl ⟨rfl, rfl, herase i⟩
  | killAll hpc hw =>
      unfold killAllSockets at hw
      split at hw
      · exact absurd hw (by simp)
      · cases hw
        exact Or.inl ⟨rfl, rfl, List.nil_sublist _⟩
  | job hw hstill hpc => exact Or.inl ⟨rfl, hquiet hstill.toQuiet⟩
  | ask hpc ht => exact Or.inl ⟨rfl, hquiet (still_goto w _).toQuiet⟩
  | readyDone hpc hnone => exact Or.inl ⟨rfl, hquiet (still_goto w _).toQuiet⟩
  | call hpc hp ht =>
      split
      · exact Or.inl ⟨rfl, rfl, List.Sublist.refl _⟩
      · exact Or.inl ⟨rfl, hquiet (still_goto w _).toQuiet⟩
  | pass hpc hr => exact Or.inl ⟨rfl, hquiet (still_goto w _).toQuiet⟩
  | serve hpc hr ht =>
      exact Or.inl ⟨rfl, rfl, identities_serve w _ _ _ _ _ _ ▸ List.Sublist.refl _⟩
  | goodbye hpc ht hb => exact Or.inl ⟨rfl, rfl, herase _⟩
  | queue hpc ht hb hq hstates hpc' => exact Or.inl ⟨rfl, hquiet hq⟩
  | result hpc ht hb hstill hpc' => exact Or.inl ⟨rfl, hquiet hstill.toQuiet⟩
  | handleReady hpc hstill hpc' => exact Or.inl ⟨rfl, hquiet hstill.toQuiet⟩
  | running hpc hq hpc' => exact Or.inl ⟨rfl, hquiet hq⟩

/-! ## Who is removed -/

/-- What the record says of the table. -/
structure HistoryInv (A : Addressing ρ) (h : History ρ) : Prop where
  table : TableInv A h.world
  world : h.world.identities = h.joined.filter fun x => x.serial ∉ h.left
  joined : h.joined.map (·.serial) = List.range h.world.accepted
  left : ∀ n ∈ h.left, n < h.world.accepted
  /-- Whoever is in hand was read last, and is marked if that was a goodbye. -/
  served : ∀ i q t, h.world.pc = .started i q → h.world.connectedTablets[i]? = some t →
    ∃ c, h.reported.getLast? = some (t.serial, c) ∧ t.currTrans.batmanTrans = isGoodbye c

theorem historyInv_init : HistoryInv A (History.init : History ρ) where
  table := tableInv_init
  world := rfl
  joined := rfl
  left _ hn := absurd hn List.not_mem_nil
  served _ _ _ hpc := by simp [History.init, Bluetooth.init] at hpc

section
variable {h : History ρ} {launch : Launch} {readWholeFile : Files}

theorem removed_go_of_pc (hpc : ∀ i q, h.world.pc ≠ .started i q) :
    h.removed (.go launch readWholeFile) = [] := by
  unfold History.removed
  dsimp only
  split
  · rename_i i q _ _ hstarted _
    exact absurd hstarted (hpc i q)
  · rfl

theorem HistoryInv.removed_go (hi : HistoryInv A h) {i : Nat} {q : ρ} {t : BtTabObj ρ}
    (hpc : h.world.pc = .started i q) (ht : h.world.connectedTablets[i]? = some t) :
    h.removed (.go launch readWholeFile) =
      if t.currTrans.batmanTrans then [t.serial] else [] := by
  obtain ⟨c, hlast, hb⟩ := hi.served i q t hpc ht
  unfold History.removed
  rw [hpc, hlast, hb]

end

/-- When a tablet is erased its serial number is the only one that goes. -/
theorem eq_serial_iff (hn : w.serials.Nodup) {i : Nat} {t : BtTabObj ρ}
    (ht : w.connectedTablets[i]? = some t)
    (htab : w'.connectedTablets = w.connectedTablets.eraseIdx i) (n : Nat) :
    n = t.serial ↔ n ∈ w.serials ∧ n ∉ w'.serials := by
  have hget : w.serials[i]? = some t.serial := by
    rw [Bluetooth.serials, List.getElem?_map, ht]
    rfl
  have hmem : n ∈ w'.serials ↔ n ∈ w.serials ∧ n ≠ t.serial := by
    rw [Bluetooth.serials, htab, ← List.eraseIdx_map]
    exact Lists.mem_eraseIdx_of_nodup hn hget n
  rw [hmem]
  constructor
  · rintro rfl
    exact ⟨List.mem_of_getElem? hget, fun hc => hc.2 rfl⟩
  · rintro ⟨hn, hgone⟩
    exact not_not.mp fun hne => hgone ⟨hn, hne⟩

/-- `killSocket` finds the tablet with the handle, and there is no other. -/
theorem TableInv.filter_socket (h : TableInv A w) {deleteSock : Socket} {i : Nat}
    {t : BtTabObj ρ} (hi : w.findSocket deleteSock = some i)
    (ht : w.connectedTablets[i]? = some t) (n : Nat) :
    n ∈ (w.connectedTablets.filter (·.socket = deleteSock)).map (·.serial) ↔ n = t.serial := by
  have hsocket : t.socket = deleteSock := by
    unfold findSocket at hi
    split at hi
    · rename_i hm
      have hget := List.getElem?_idxOf hm
      rw [Option.some.inj hi, Bluetooth.sockets, List.getElem?_map, ht] at hget
      exact Option.some.inj hget
    · exact absurd hi (by simp)
  constructor
  · intro hn
    obtain ⟨u, hu, rfl⟩ := List.mem_map.mp hn
    obtain ⟨hmem, hsame⟩ := List.mem_filter.mp hu
    have hinj := List.inj_on_of_nodup_map h.sockets hmem (List.mem_of_getElem? ht)
      ((of_decide_eq_true hsame).trans hsocket.symm)
    rw [hinj]
  · rintro rfl
    exact List.mem_map_of_mem (List.mem_filter.mpr
      ⟨List.mem_of_getElem? ht, decide_eq_true hsocket⟩)

/-- **A step takes out of the table whom it is to remove**, and nobody else. -/
theorem HistoryInv.mem_removed {h : History ρ} {a : Act} (hi : HistoryInv A h)
    (hs : TableStep A h.world a w') (n : Nat) :
    n ∈ h.removed a ↔ n ∈ h.world.serials ∧ n ∉ w'.serials := by
  have hnone : h.removed a = [] → (∀ n ∈ h.world.serials, n ∈ w'.serials) →
      (n ∈ h.removed a ↔ n ∈ h.world.serials ∧ n ∉ w'.serials) := by
    intro hempty hkept
    rw [hempty]
    exact iff_of_false List.not_mem_nil fun ⟨hn, hgone⟩ => hgone (hkept n hn)
  have hquiet : h.removed a = [] → Quiet h.world w' →
      (n ∈ h.removed a ↔ n ∈ h.world.serials ∧ n ∉ w'.serials) :=
    fun hempty hq => hnone hempty fun n hn => hq.serials ▸ hn
  cases hs with
  | nobody hpc => exact hquiet rfl (still_goto _ _).toQuiet
  | accept hpc hw =>
      obtain ⟨_, _, _, hserials, _⟩ := acceptConn_eq_some hw
      refine hnone rfl fun n hn => ?_
      show n ∈ Bluetooth.serials _
      exact hserials ▸ List.mem_append_left _ hn
  | @kill deleteSock w' hpc hw =>
      rcases killSocket_eq_some hw with ⟨hfind, rfl⟩ | ⟨i, t, hfind, ht, _, rfl⟩
      · -- there is no tablet with the handle
        refine hnone ?_ fun n hn => hn
        show List.map _ (List.filter _ _) = []
        rw [List.map_eq_nil_iff, List.filter_eq_nil_iff]
        intro t ht hsocket
        unfold findSocket at hfind
        rw [if_pos ((of_decide_eq_true hsocket) ▸ List.mem_map_of_mem ht)] at hfind
        exact absurd hfind (by simp)
      · exact (hi.table.filter_socket hfind ht n).trans (eq_serial_iff hi.table.nodup ht rfl n)
  | killAll hpc hw =>
      unfold killAllSockets at hw
      split at hw
      · exact absurd hw (by simp)
      · cases hw
        exact ⟨fun hn => ⟨hn, List.not_mem_nil⟩, And.left⟩
  | job hw hstill hpc => exact hquiet rfl hstill.toQuiet
  | ask hpc ht => exact hquiet (removed_go_of_pc (by simp [hpc])) (still_goto _ _).toQuiet
  | readyDone hpc hnone => exact hquiet (removed_go_of_pc (by simp [hpc])) (still_goto _ _).toQuiet
  | call hpc hp hu =>
      refine hnone rfl fun n hn => ?_
      split
      · exact hn
      · exact hn
  | pass hpc hr => exact hquiet (removed_go_of_pc (by simp [hpc])) (still_goto _ _).toQuiet
  | serve hpc hr hu =>
      refine hnone (removed_go_of_pc (by simp [hpc])) fun n hn => ?_
      rw [serials_eq, identities_serve, ← serials_eq]
      exact hn
  | @goodbye i q t launch readWholeFile hpc ht hb =>
      rw [hi.removed_go hpc ht, if_pos hb, List.mem_singleton]
      exact eq_serial_iff hi.table.nodup ht rfl n
  | queue hpc ht hb hq hstates hpc' =>
      exact hquiet (by rw [hi.removed_go hpc ht, hb]; rfl) hq
  | result hpc ht hb hstill hpc' =>
      exact hquiet (by rw [hi.removed_go hpc ht, hb]; rfl) hstill.toQuiet
  | handleReady hpc hstill hpc' =>
      exact hquiet (removed_go_of_pc (by simp [hpc])) hstill.toQuiet
  | running hpc hq hpc' =>
      refine hquiet (removed_go_of_pc ?_) hq
      rcases hpc with ⟨i, hpc⟩ | ⟨q, owner, i, hpc⟩
      · simp [hpc]
      · simp [hpc]

/-- Who leaves, how, and what becomes of the others. -/
theorem TableInv.leaves (h : TableInv A w) {a : Act} (hs : TableStep A w a w') {i : Nat}
    {t : BtTabObj ρ} (ht : w.connectedTablets[i]? = some t) (hgone : t.serial ∉ w'.serials) :
    a = .killAllSockets ∧ w'.connectedTablets = [] ∨
      w'.connectedTablets = w.connectedTablets.eraseIdx i ∧
        (a = .killSocket t.socket ∨
          (∃ launch readWholeFile, a = .go launch readWholeFile) ∧ t.currTrans.batmanTrans = true ∧
            ∃ q, w.pc = .started i q) := by
  have hmem : t.serial ∈ w.serials := List.mem_map_of_mem (List.mem_of_getElem? ht)
  have hquiet : Quiet w w' → False := fun hq => hgone (hq.serials ▸ hmem)
  -- a tablet other than the one at index `i` was erased
  have herase : ∀ j u, w.connectedTablets[j]? = some u →
      w'.connectedTablets = w.connectedTablets.eraseIdx j → j = i ∧ u = t := by
    intro j u hu htab
    have hij : j = i := by
      by_contra hne
      refine hgone (List.mem_map_of_mem ?_)
      rw [htab]
      exact List.mem_eraseIdx_iff_getElem?.mpr ⟨i, Ne.symm hne, ht⟩
    subst hij
    rw [ht] at hu
    exact ⟨rfl, (Option.some.inj hu).symm⟩
  cases hs with
  | nobody hpc => exact (hquiet (still_goto w _).toQuiet).elim
  | accept hpc hw =>
      obtain ⟨_, _, _, hserials, _⟩ := acceptConn_eq_some hw
      refine absurd ?_ hgone
      show t.serial ∈ Bluetooth.serials _
      exact hserials ▸ List.mem_append_left _ hmem
  | kill hpc hw =>
      rcases killSocket_eq_some hw with ⟨_, rfl⟩ | ⟨j, u, hj, hu, _, rfl⟩
      · exact absurd hmem hgone
      · obtain ⟨rfl, rfl⟩ := herase j u hu rfl
        refine Or.inr ⟨rfl, Or.inl ?_⟩
        unfold findSocket at hj
        split at hj
        · rename_i hm
          have hj := Option.some.inj hj
          have hget : w.sockets[j]? = some u.socket := by
            rw [Bluetooth.sockets, List.getElem?_map, hu]
            rfl
          obtain ⟨hlt, hget⟩ := List.getElem?_eq_some_iff.mp hget
          subst hj
          rw [List.getElem_idxOf] at hget
          rw [hget]
        · exact absurd hj (by simp)
  | killAll hpc hw =>
      unfold killAllSockets at hw
      split at hw
      · exact absurd hw (by simp)
      · cases hw
        exact Or.inl ⟨rfl, rfl⟩
  | job hw hstill hpc => exact (hquiet hstill.toQuiet).elim
  | ask hpc ht => exact (hquiet (still_goto w _).toQuiet).elim
  | readyDone hpc hnone => exact (hquiet (still_goto w _).toQuiet).elim
  | call hpc hp hu =>
      refine absurd hmem ?_
      split at hgone
      · exact hgone
      · exact hgone
  | pass hpc hr => exact (hquiet (still_goto w _).toQuiet).elim
  | serve hpc hr hu =>
      rw [serials_eq, identities_serve, ← serials_eq] at hgone
      exact absurd hmem hgone
  | @goodbye j q u launch readWholeFile hpc hu hb =>
      obtain ⟨rfl, rfl⟩ := herase j u hu rfl
      exact Or.inr ⟨rfl, Or.inr ⟨⟨_, _, rfl⟩, hb, q, hpc⟩⟩
  | queue hpc hu hb hq hstates hpc' => exact (hquiet hq).elim
  | result hpc hu hb hstill hpc' => exact (hquiet hstill.toQuiet).elim
  | handleReady hpc hstill hpc' => exact (hquiet hstill.toQuiet).elim
  | running hpc hq hpc' => exact (hquiet hq).elim

/-! ## Whole runs -/

/-- The tablet in hand after a step was read last. -/
theorem served_of_step {h : History ρ} (hi : HistoryInv A h) {a : Act}
    (hs : TableStep A h.world a w') {i : Nat} {q : ρ} {t : BtTabObj ρ} (hpc : w'.pc = .started i q)
    (ht : w'.connectedTablets[i]? = some t) :
    ∃ c, (h.current a ++ reading h.world a).getLast? = some (t.serial, c) ∧
      t.currTrans.batmanTrans = isGoodbye c := by
  cases hs.handStep (by rw [hpc]; rfl) with
  | job hstill hsame =>
      obtain ⟨u, hu, hm⟩ := hstill.toQuiet.get ht
      have hserial : t.serial = u.serial := congrArg (fun m => m.1.serial) hm
      have hbat : t.currTrans.batmanTrans = u.currTrans.batmanTrans := congrArg (fun m => m.2.2) hm
      obtain ⟨c, hlast, hc⟩ := hi.served i q u (hsame.symm.trans hpc) hu
      refine ⟨c, ?_, hbat.trans hc⟩
      rw [hserial, ← hlast]
      exact congrArg List.getLast? (List.append_nil h.reported)
  | ask _ => cases hpc
  | call _ _ _ hpc' _ =>
      rw [hpc] at hpc'
      exact absurd hpc' (by simp)
  | @serve j p c u launch readWholeFile hpoll hres hu =>
      cases hpc
      have hcalm := hi.table.calm_of_pc (fun _ _ => by rw [hpoll]; simp) hu
      replace ht : (h.world.modifyAt i (serve (h.world.pointer A i) launch readWholeFile
        c)).connectedTablets[i]? = some t := ht
      rw [modifyAt_get, if_pos rfl, hu] at ht
      rw [← Option.some.inj ht]
      have hreading : reading h.world (.go launch readWholeFile) = [(u.serial, c)] := by
        unfold reading
        rw [hpoll]
        dsimp only
        rw [hres, hu]
      refine ⟨c, ?_, initReadyTransaction_batman _ _ _ _ _ _ c hcalm⟩
      rw [hreading, List.getLast?_concat]
      rfl

/-- **Preserved by every step.** -/
theorem HistoryInv.step {h h' : History ρ} {parse : List Byte → Option Json} {a : Act}
    (hi : HistoryInv A h) (hstep : h.step A parse a = some h') : HistoryInv A h' := by
  obtain ⟨w', hw, rfl⟩ := Option.map_eq_some_iff.mp hstep
  have hs := hi.table.tableStep hw
  have htable := hi.table.step hs
  have hremoved := hi.mem_removed hs
  have hleft : ∀ n ∈ h.left ++ h.removed a, n < h.world.accepted := by
    intro n hn
    rcases List.mem_append.mp hn with hn | hn
    · exact hi.left n hn
    · exact hi.table.fresh n ((hremoved n).mp hn).1
  refine ⟨htable, ?_, ?_, ?_, ?_⟩
  · dsimp only
    -- the table is what has joined and not left
    have hserial : ∀ x ∈ h.joined, x.serial ∉ h.left → x.serial ∈ h.world.serials := by
      intro x hx hn
      rw [serials_eq, hi.world]
      exact List.mem_map_of_mem (List.mem_filter.mpr ⟨hx, decide_eq_true hn⟩)
    rcases hs.identities with ⟨harr, _, hsub⟩ | ⟨new, harr, hnew, _, happ⟩
    · have hnodup : (h.world.identities.map (·.serial)).Nodup := by
        rw [← serials_eq]
        exact hi.table.nodup
      rw [harr, List.append_nil, eq_filter_of_sublist hsub hnodup, hi.world, List.filter_filter]
      refine List.filter_congr fun x hx => ?_
      rw [Bool.eq_iff_iff, Bool.and_eq_true, decide_eq_true_iff, decide_eq_true_iff,
        decide_eq_true_iff, ← serials_eq, List.mem_append, hremoved, not_or, not_and_not_right]
      constructor
      · intro ⟨hmem, hn⟩
        exact ⟨hn, fun _ => hmem⟩
      · intro ⟨hn, himp⟩
        exact ⟨himp (hserial x hx hn), hn⟩
    · -- a step that lets one in lets nobody out
      have hkept : h.removed a = [] := by
        refine List.eq_nil_iff_forall_not_mem.mpr fun n hn => ?_
        obtain ⟨hold, hgone⟩ := (hremoved n).mp hn
        refine hgone ?_
        rw [serials_eq w', happ, List.map_append, ← serials_eq]
        exact List.mem_append_left _ hold
      have hfresh : new.serial ∉ h.left := fun hn => by
        have := hi.left _ hn
        omega
      rw [hkept, List.append_nil, harr, happ, List.filter_append, hi.world,
        List.filter_cons_of_pos (by simpa using hfresh), List.filter_nil]
  · dsimp only
    rcases hs.identities with ⟨harr, hacc, _⟩ | ⟨new, harr, hnew, hacc, _⟩
    · rw [harr, List.append_nil, hacc]
      exact hi.joined
    · rw [harr, hacc, List.map_append, hi.joined, List.range_succ, List.map_singleton, hnew]
  · intro n hn
    have hlt := hleft n hn
    dsimp only
    rcases hs.identities with ⟨_, hacc, _⟩ | ⟨_, _, _, hacc, _⟩
    · omega
    · omega
  · intro i q t hpc ht
    exact served_of_step hi hs hpc ht

theorem historyInv_run {h : History ρ} {parse : List Byte → Option Json}
    (hrun : Steps.Run (History.step A parse) (fun _ _ => True) History.init h) : HistoryInv A h :=
  hrun.invariant historyInv_init fun _ _ _ hi _ hstep => hi.step hstep

/-- Three tablets join, the first says goodbye, the second is killed, and another joins. -/
def threeJoin : List Act :=
  twoJoin ++ joins 12 :: passedOver ++ passedOver ++ passedOver ++ [onward, onward] ++
  .updateAllBt none 0 :: sendsCode 0 ++ [.call ⟨.closesocket, ()⟩, onward, onward] ++
    passedOver ++ [onward, onward] ++
  .killSocket 11 :: joins 13 :: passedOver ++ passedOver ++ [onward, onward]

end ScoutComputer.Bluetooth
