import ScoutComputer.Bluetooth.SlotProof

/-!
# The queue and the busy flags

With `handles` a pointer follows its tablet, so moving the tablets does no harm. What is
left is removing one: `killSocket` and `killAllSockets` do not look into
`runningTransactions`, and an entry whose tablet they remove stays there. So the condition
on a run is about its removals only, and the busy flags are counted against the queue by
the invariant of the server.
-/

namespace ScoutComputer.Bluetooth

open Interact Steps

/--
There is exactly one entry for each tablet that is undergoing a transaction, and none
for any other. A transaction is known by the handle of its tablet.
-/
def QueueAgrees (w : Bluetooth Socket) : Prop :=
  (∀ t ∈ w.connectedTablets, t.transactionState = true →
    (w.runningTransactions.map (·.trans)).count t.socket = 1) ∧
  ∀ e ∈ w.runningTransactions, ∃ t ∈ w.connectedTablets,
    t.socket = e.trans ∧ t.transactionState = true

instance (w : Bluetooth Socket) : Decidable w.QueueAgrees :=
  inferInstanceAs (Decidable (_ ∧ _))

/-- Only tablets that are not undergoing a transaction are removed from outside. -/
def removalSafe (w : Bluetooth Socket) : Act → Bool
  | .killSocket deleteSock =>
      w.connectedTablets.all fun t => t.socket ≠ deleteSock || !t.transactionState
  | .killAllSockets => w.noneBusyFrom 0
  | _ => true

/-- Between two calls of the public operations. -/
def isIdle (w : Bluetooth Socket) : Bool :=
  match w.pc with
  | .idle => true
  | _ => false

variable {w w' : Bluetooth Socket}

theorem socket_of_findSocket {s : Socket} {i : Nat} {t : BtTabObj Socket}
    (hi : w.findSocket s = some i) (ht : w.connectedTablets[i]? = some t) : t.socket = s := by
  unfold findSocket at hi
  split at hi
  · rename_i hm
    have hget := List.getElem?_idxOf hm
    rw [Option.some.inj hi, sockets, List.getElem?_map, ht] at hget
    exact Option.some.inj hget
  · exact absurd hi (by simp)

/-- A handle resolves to the tablet that has it. -/
theorem resolve_handles (hn : w.sockets.Nodup) {h : Socket} {n : Nat} :
    w.resolve handles h = some n ↔ ∃ t ∈ w.connectedTablets, t.socket = h ∧ t.serial = n := by
  constructor
  · intro hres
    obtain ⟨i, t, hi, ht, hs⟩ := exists_of_resolve hres
    have hfind : w.findSocket h = some i := hi
    exact ⟨t, List.mem_of_getElem? ht, socket_of_findSocket hfind ht, hs⟩
  · rintro ⟨t, ht, rfl, rfl⟩
    obtain ⟨i, hi⟩ := List.mem_iff_getElem?.mp ht
    have hget : w.sockets[i]? = some t.socket := by
      rw [sockets, List.getElem?_map, hi]
      rfl
    obtain ⟨hlt, hget⟩ := List.getElem?_eq_some_iff.mp hget
    unfold resolve index handles
    dsimp only
    rw [← hget, if_pos (List.getElem_mem hlt), hn.idxOf_getElem, Option.bind_some, serials,
      List.getElem?_map, hi]
    rfl

/-- A handle is good as long as its tablet is there. -/
theorem keepsPointers_handles (hn : w.sockets.Nodup) (hn' : w'.sockets.Nodup)
    (hstay : ∀ t ∈ w.connectedTablets, t.transactionState = true → t ∈ w'.connectedTablets)
    (hserials : w.serials.Nodup) : KeepsPointers handles w w' := by
  intro t ht hb p hp
  obtain ⟨u, hu, hup, hus⟩ := (resolve_handles hn).mp hp
  obtain ⟨i, hi⟩ := List.mem_iff_getElem?.mp ht
  obtain ⟨j, hj⟩ := List.mem_iff_getElem?.mp hu
  obtain ⟨_, rfl⟩ := eq_of_serial hserials hj hi hus
  exact (resolve_handles hn').mpr ⟨u, hstay u hu hb, hup, hus⟩

/-- A tablet that is not undergoing a transaction may leave. -/
theorem keepsPointers_erase_handles (h : Inv handles w) {i : Nat} {t : BtTabObj Socket}
    (ht : w.connectedTablets[i]? = some t) (hfree : t.transactionState = false) :
    KeepsPointers handles w { w with connectedTablets := w.connectedTablets.eraseIdx i } := by
  refine keepsPointers_handles h.sockets ?_ ?_ h.serials
  · show (List.map _ (w.connectedTablets.eraseIdx i)).Nodup
    rw [← List.eraseIdx_map]
    exact h.sockets.eraseIdx i
  · intro u hu hb
    obtain ⟨j, hj⟩ := List.mem_iff_getElem?.mp hu
    refine List.mem_eraseIdx_iff_getElem?.mpr ⟨j, ?_, hj⟩
    rintro rfl
    rw [ht] at hj
    rw [← Option.some.inj hj, hfree] at hb
    exact Bool.noConfusion hb

theorem stepKeeps_handles {parse : List Byte → Option Json} {a : Act} (h : Inv handles w)
    (hok : removalSafe w a = true) (hw : w.act handles parse a = some w') :
    StepKeeps handles w w' a := by
  unfold act at hw
  cases a with
  | call e => trivial
  | job i e => trivial
  | updateAllBt peer grow =>
      dsimp only at hw
      split at hw
      · obtain ⟨w₁, hw₁, rfl⟩ := Option.map_eq_some_iff.mp hw
        have hs := acceptConn_sockets_nodup h.sockets hw₁
        refine keepsPointers_handles h.sockets hs (fun t ht _ => ?_) h.serials
        cases peer with
        | none =>
            cases hw₁
            exact ht
        | some peer =>
            obtain ⟨_, htab, _⟩ := acceptConn_eq_some hw₁
            show t ∈ w₁.connectedTablets
            rw [htab]
            exact List.mem_append_left _ ht
      · exact absurd hw (by simp)
  | killSocket deleteSock =>
      dsimp only at hw
      split at hw
      · rcases killSocket_eq_some hw with ⟨_, rfl⟩ | ⟨i, t, hi, ht, _, rfl⟩
        · exact fun _ _ _ _ hp => hp
        · have hall := List.all_eq_true.mp hok t (List.mem_of_getElem? ht)
          have hfree : t.transactionState = false := by
            simpa [socket_of_findSocket hi ht] using hall
          exact keepsPointers_erase_handles h ht hfree
      · exact absurd hw (by simp)
  | killAllSockets =>
      intro t ht hb
      obtain ⟨j, hj⟩ := List.mem_iff_getElem?.mp ht
      exact absurd (lt_of_noneBusyFrom hok hj hb) (Nat.not_lt_zero j)
  | go launch readWholeFile =>
      intro i q t hpc hderef hbatman
      dsimp only at hw
      unfold Bluetooth.go at hw
      rw [hpc] at hw
      obtain ⟨ht, hfree, _, _, rfl⟩ := h.startedTrans_goodbye hpc hderef hbatman hw
      exact keepsPointers_erase_handles h ht hfree

/-- With handles for pointers, the invariant says what the queue should hold. -/
theorem Inv.queueAgrees (h : Inv handles w) : w.QueueAgrees := by
  have hback : ∀ e ∈ w.runningTransactions, ∃ t ∈ w.connectedTablets,
      t.socket = e.trans ∧ t.serial = e.owner ∧ t.transactionState = true := by
    intro e he
    obtain ⟨t, ht, hs, ho⟩ := (resolve_handles h.sockets).mp (h.entry e he)
    obtain ⟨i, hi⟩ := List.mem_iff_getElem?.mp ht
    have hb := (h.busy e.owner).mp (List.mem_map_of_mem he)
    rw [← ho] at hb
    exact ⟨t, ht, hs, ho, (busy_serial h.serials hi).mp hb⟩
  refine ⟨fun t ht hb => ?_, fun e he => ?_⟩
  · have hm : t.serial ∈ w.runningTransactions.map (·.owner) :=
      (h.busy _).mpr (busy_iff.mpr ⟨t, ht, rfl, hb⟩)
    obtain ⟨e, he, ho⟩ := List.mem_map.mp hm
    have hhandle : e.trans = t.socket := by
      obtain ⟨u, hu, hus, huo, _⟩ := hback e he
      obtain ⟨i, hi⟩ := List.mem_iff_getElem?.mp ht
      obtain ⟨j, hj⟩ := List.mem_iff_getElem?.mp hu
      obtain ⟨_, rfl⟩ := eq_of_serial h.serials hj hi (huo.trans ho)
      exact hus.symm
    have hnodup : (w.runningTransactions.map (·.trans)).Nodup := by
      refine List.Nodup.map_on ?_ (h.once.of_map _)
      intro x hx y hy hxy
      have hox := h.entry x hx
      rw [hxy, h.entry y hy] at hox
      cases x
      cases y
      cases hxy
      cases hox
      rfl
    refine List.count_eq_one_of_mem hnodup ?_
    rw [← hhandle]
    exact List.mem_map_of_mem he
  · obtain ⟨t, ht, hs, _, hb⟩ := hback e he
    exact ⟨t, ht, hs, hb⟩

/-- **The queue and the flags agree** after every operation, while removals are safe. -/
theorem queueAgrees_of_removalSafe (parse : List Byte → Option Json) (w : Bluetooth Socket)
    (h : Run handles parse (fun w a => removalSafe w a = true) w) (hidle : w.isIdle = true) :
    w.QueueAgrees := by
  rcases sound_run (fun _ _ _ hi hok hw => stepKeeps_handles hi hok hw) h with hi | ⟨hpc, _⟩
  · exact hi.queueAgrees
  · unfold isIdle at hidle
    rw [hpc] at hidle
    exact Bool.noConfusion hidle

/-! ## Two runs -/

/-- A tablet joins, starts a transfer, and the main thread finishes its pass. -/
def queued : List Act :=
  joins 10 :: sendsCode 2 ++ [onward, onward, onward, onward, onward]

/-- Two more join, one of which says goodbye, and the other is killed. -/
def othersRemoved : List Act :=
  queued ++ joins 11 :: passedOver ++ passedOver ++ [onward, onward, onward] ++
    comesAndGoes ++ [.killSocket 12]

theorem queueAgrees_of_removalSafe_others : ∃ w : Bluetooth Socket,
    w.serials = [0] ∧ w.runningTransactions.length = 1 ∧ w.QueueAgrees := by
  have h : ((replay (act handles fun _ => none) removalSafe othersRemoved init).map fun w =>
      (w.isIdle, w.serials, w.runningTransactions.length)) = some (true, [0], 1) := by
    decide +kernel
  obtain ⟨w, hw, hq⟩ := Option.map_eq_some_iff.mp h
  simp only [Prod.mk.injEq] at hq
  obtain ⟨hidle, hserials, hlen⟩ := hq
  exact ⟨w, hserials, hlen, queueAgrees_of_removalSafe (fun _ => none) w
    (run_of_replay (fun _ _ h => h) .init hw) hidle⟩

/-- Its transfer is over, and before the next pass the tablets are reset. -/
def resetBeforePass : List Act :=
  queued ++ (readCalls (bytes "red")).map (.job 0) ++ [.killAllSockets]

theorem resetBeforePass_queue : ¬ ∀ (parse : List Byte → Option Json) (w : Bluetooth Socket),
    Run handles parse (fun _ _ => True) w → w.isIdle = true → w.QueueAgrees := by
  intro hall
  have h : ((replay (act handles fun _ => none) (fun _ _ => true) resetBeforePass init).map fun w =>
      w.isIdle && !decide w.QueueAgrees) = some true := by decide +kernel
  obtain ⟨w, hw, hq⟩ := Option.map_eq_some_iff.mp h
  obtain ⟨hidle, hnot⟩ := (Bool.and_eq_true _ _).mp hq
  have hq := hall (fun _ => none) w (run_of_replay (fun _ _ _ => trivial) .init hw) hidle
  rw [decide_eq_true hq] at hnot
  exact Bool.noConfusion hnot

end ScoutComputer.Bluetooth
