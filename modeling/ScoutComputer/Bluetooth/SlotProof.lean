import ScoutComputer.Bluetooth.ServerRun

/-!
# Pointers into the buffer of `connectedTablets`

With `slots` a pointer is a place. It keeps naming its tablet as long as nothing moves
in front of it, so transfers stay with their own tablet in every run in which tablets
join and leave only while no tablet behind them is undergoing a transaction
(`slotSafe`). Nothing in the program sees to that.
-/

namespace ScoutComputer.Bluetooth

open Interact Steps

/-! ## When slots keep their tablets -/

/-- No tablet from index `k` on is undergoing a transaction. -/
def noneBusyFrom {ρ : Type} (w : Bluetooth ρ) (k : Nat) : Bool :=
  (w.connectedTablets.drop k).all fun t => !t.transactionState

/--
A tablet joins without moving the others, or while none of them is undergoing a
transaction; and it leaves while none behind it is.
-/
def slotSafe (w : Bluetooth (Nat × Nat)) : Act → Bool
  | .updateAllBt (some _) _ =>
      decide (w.connectedTablets.length < w.capacity) || w.noneBusyFrom 0
  | .go _ _ =>
      match w.pc with
      | .started i q =>
          match w.deref slots q with
          | some t => !t.currTrans.batmanTrans || w.noneBusyFrom i
          | none => true
      | _ => true
  | .killSocket deleteSock =>
      match w.findSocket deleteSock with
      | some i => w.noneBusyFrom i
      | none => true
  | .killAllSockets => w.noneBusyFrom 0
  | _ => true

variable {w w' : Bluetooth (Nat × Nat)}

theorem lt_of_noneBusyFrom {ρ : Type} {w : Bluetooth ρ} {k j : Nat} {t : BtTabObj ρ}
    (h : w.noneBusyFrom k = true) (ht : w.connectedTablets[j]? = some t)
    (hb : t.transactionState = true) : j < k := by
  by_contra hk
  have hm : t ∈ w.connectedTablets.drop k := by
    refine List.mem_of_getElem? (i := j - k) ?_
    rw [List.getElem?_drop]
    have hj : k + (j - k) = j := by omega
    rw [hj]
    exact ht
  have hfree := List.all_eq_true.mp h t hm
  rw [hb] at hfree
  exact Bool.noConfusion hfree

/-- A slot in front of everything that changed holds what it held. -/
theorem resolve_slots {p : Nat × Nat} {n k : Nat} (hn : w.serials.Nodup)
    (h : w.resolve slots p = some n) {t : BtTabObj (Nat × Nat)}
    (ht : w.connectedTablets[k]? = some t) (hs : t.serial = n) (hbuf : w'.buf = w.buf)
    (hk : w'.connectedTablets[k]? = some t) : w'.resolve slots p = some n := by
  obtain ⟨hindex, _⟩ := deref_of_resolve hn h ht hs
  unfold index slots at hindex
  dsimp only at hindex
  split at hindex
  · rename_i hp
    have hpk : p.2 = k := Option.some.inj hindex
    obtain ⟨hlt, _⟩ := List.getElem?_eq_some_iff.mp hk
    have hlt' : k < w'.sockets.length := by
      rw [sockets, List.length_map]
      exact hlt
    unfold resolve index slots
    dsimp only
    rw [if_pos ⟨hp.1.trans hbuf.symm, by rw [hpk]; exact hlt'⟩, Option.bind_some, hpk, serials,
      List.getElem?_map, hk, ← hs]
    rfl
  · exact absurd hindex (by simp)

/-- Nothing goes astray when the tablets undergoing a transaction stay in their slots. -/
theorem keepsPointers_slots (hn : w.serials.Nodup)
    (hstay : ∀ (j : Nat) (t : BtTabObj (Nat × Nat)), w.connectedTablets[j]? = some t →
      t.transactionState = true →
      w'.buf = w.buf ∧ w'.connectedTablets[j]? = some t) : KeepsPointers slots w w' := by
  intro t ht hb p hp
  obtain ⟨j, hj⟩ := List.mem_iff_getElem?.mp ht
  obtain ⟨hbuf, hj'⟩ := hstay j t hj hb
  exact resolve_slots hn hp hj rfl hbuf hj'

theorem keepsPointers_of_noneBusy (h : w.noneBusyFrom 0 = true) : KeepsPointers slots w w' := by
  intro t ht hb
  obtain ⟨j, hj⟩ := List.mem_iff_getElem?.mp ht
  exact absurd (lt_of_noneBusyFrom h hj hb) (Nat.not_lt_zero j)

theorem keepsPointers_erase (hn : w.serials.Nodup) {k : Nat} (h : w.noneBusyFrom k = true) :
    KeepsPointers slots w { w with connectedTablets := w.connectedTablets.eraseIdx k } := by
  refine keepsPointers_slots hn fun j t hj hb => ⟨rfl, ?_⟩
  show (w.connectedTablets.eraseIdx k)[j]? = some t
  rw [List.getElem?_eraseIdx_of_lt (lt_of_noneBusyFrom h hj hb)]
  exact hj

theorem keepsPointers_accept (hn : w.serials.Nodup) {peer : Option (Socket × List Byte)}
    {grow : Nat} (hw : w.acceptConn peer grow = some w')
    (hok : slotSafe w (.updateAllBt peer grow) = true) : KeepsPointers slots w w' := by
  cases peer with
  | none =>
      cases hw
      exact fun _ _ _ _ hp => hp
  | some peer =>
      obtain ⟨_, htab, _, _, _, _, _, hbuf⟩ := acceptConn_eq_some hw
      rcases (Bool.or_eq_true _ _).mp hok with hlt | hfree
      · refine keepsPointers_slots hn fun j t hj _ => ⟨hbuf (of_decide_eq_true hlt), ?_⟩
        obtain ⟨hj', _⟩ := List.getElem?_eq_some_iff.mp hj
        rw [htab, List.getElem?_append_left hj']
        exact hj
      · exact keepsPointers_of_noneBusy hfree

theorem keepsPointers_killSocket (hn : w.serials.Nodup) {s : Socket}
    (hw : w.killSocket s = some w') (hok : ∀ i, w.findSocket s = some i → w.noneBusyFrom i = true) :
    KeepsPointers slots w w' := by
  rcases killSocket_eq_some hw with ⟨_, rfl⟩ | ⟨i, t, hi, _, _, rfl⟩
  · exact fun _ _ _ _ hp => hp
  · exact keepsPointers_erase hn (hok i hi)

theorem stepKeeps_slots {parse : List Byte → Option Json} {a : Act} (h : Inv slots w)
    (hok : slotSafe w a = true) (hw : w.act slots parse a = some w') : StepKeeps slots w w' a := by
  unfold act at hw
  cases a with
  | call e => trivial
  | job i e => trivial
  | updateAllBt peer grow =>
      dsimp only at hw
      split at hw
      · obtain ⟨w₁, hw₁, rfl⟩ := Option.map_eq_some_iff.mp hw
        have hkeep := keepsPointers_accept h.serials hw₁ hok
        exact hkeep
      · exact absurd hw (by simp)
  | killSocket deleteSock =>
      dsimp only at hw
      split at hw
      · refine keepsPointers_killSocket h.serials hw fun i hi => ?_
        unfold slotSafe at hok
        dsimp only at hok
        rw [hi] at hok
        exact hok
      · exact absurd hw (by simp)
  | killAllSockets => exact keepsPointers_of_noneBusy hok
  | go launch readWholeFile =>
      intro i q t hpc hderef hbatman
      have hfree : w.noneBusyFrom i = true := by
        unfold slotSafe at hok
        rw [hpc] at hok
        dsimp only at hok
        rw [hderef] at hok
        dsimp only at hok
        rw [hbatman] at hok
        exact hok
      dsimp only at hw
      unfold Bluetooth.go at hw
      rw [hpc] at hw
      obtain ⟨_, _, _, _, rfl⟩ := h.startedTrans_goodbye hpc hderef hbatman hw
      have hkeep := keepsPointers_erase h.serials hfree
      exact hkeep

/-- **No crosstalk**, as long as slots keep their tablets. -/
theorem ownTablet_of_slotSafe (parse : List Byte → Option Json) (w : Bluetooth (Nat × Nat))
    (h : Run slots parse (fun w a => slotSafe w a = true) w) : ∀ e ∈ w.log, e.OwnTablet :=
  fun e he => ((sound_run (fun _ _ _ hi hok hw => stepKeeps_slots hi hok hw) h).log e he).1

/-! ## Two runs -/

/-- The main thread goes on. -/
def onward : Act := .go .async fun _ => []

def joins (socket : Socket) : Act := .updateAllBt (some (socket, [])) 8

/-- The main thread finds that a tablet has nothing to say. -/
def passedOver : List Act := [onward, .call ⟨.select false, (0 : Int)⟩, onward]

/-- The main thread reads a code, which arrives at once. -/
def sendsCode (c : Byte) : List Act :=
  [onward, .call ⟨.select false, (1 : Int)⟩, .call ⟨.select false, (1 : Int)⟩,
    .call ⟨.select true, (1 : Int)⟩, .call ⟨.getTime none, (0 : Rat)⟩, .call ⟨.malloc 1, true⟩,
    .call ⟨.recv 1, .ret [c]⟩, .call ⟨.getTime none, (0 : Rat)⟩,
    .call ⟨.getTime (some 10), (0 : Rat)⟩]

/-- The first calls of a read transfer. -/
def firstCalls (i : Nat) : List Act :=
  [.job i ⟨.setSuccess true, ()⟩, .job i ⟨.malloc 3, true⟩, .job i ⟨.send ack, .ret 3⟩]

/-- One tablet joins and starts a transfer. -/
def transferAlone : List Act := joins 10 :: sendsCode 2 ++ [onward, onward] ++ firstCalls 0

/-- Two tablets join, one in each pass. -/
def twoJoin : List Act :=
  joins 10 :: passedOver ++ [onward, onward] ++
  joins 11 :: passedOver ++ passedOver ++ [onward, onward]

/-- The second says goodbye in the pass in which a third joins. -/
def comesAndGoes : List Act :=
  joins 12 :: passedOver ++ sendsCode 0 ++ [.call ⟨.closesocket, ()⟩, onward, onward] ++
    [onward, onward, onward]

/-- In the midst of the calls of its first transfer the others come and go. -/
def transferAmid : List Act :=
  twoJoin ++ .updateAllBt none 0 :: sendsCode 2 ++ [onward, onward] ++ passedOver ++
    [onward, onward, onward] ++ (firstCalls 0).take 2 ++ comesAndGoes ++ (firstCalls 0).drop 2

theorem ownTablet_of_slotSafe_amid : ∃ w : Bluetooth (Nat × Nat), w.serials = [0, 2] ∧
    w.log.contains (.moved (some 0) 0 [] ack) = true ∧ ∀ e ∈ w.log, e.OwnTablet := by
  have h : ((replay (act slots fun _ => none) slotSafe transferAmid init).map fun w =>
      (w.serials, w.log.contains (.moved (some 0) 0 [] ack))) = some ([0, 2], true) := by
    decide +kernel
  obtain ⟨w, hw, h⟩ := Option.map_eq_some_iff.mp h
  obtain ⟨hserials, hlog⟩ := Prod.mk.inj h
  exact ⟨w, hserials, hlog,
    ownTablet_of_slotSafe (fun _ => none) w (run_of_replay (fun _ _ h => h) .init hw)⟩

/--
Three tablets join, the second starts a transfer, and the first says goodbye: the
transfer goes on over the socket of the third.
-/
def closeInFront : List Act :=
  joins 10 :: passedOver ++ [onward, onward] ++
  joins 11 :: passedOver ++ passedOver ++ [onward, onward] ++
  joins 12 :: passedOver ++ passedOver ++ passedOver ++ [onward, onward] ++
  .updateAllBt none 0 :: passedOver ++ sendsCode 2 ++ [onward, onward] ++ passedOver ++
    [onward, onward, onward] ++
  .updateAllBt none 0 :: sendsCode 0 ++ [.call ⟨.closesocket, ()⟩, onward, onward] ++ firstCalls 0

theorem closeInFront_crosstalk : ¬ ∀ (parse : List Byte → Option Json) (w : Bluetooth (Nat × Nat)),
    Run slots parse (fun _ _ => True) w → ∀ e ∈ w.log, e.OwnTablet := by
  intro hall
  have h : ((replay (act slots fun _ => none) (fun _ _ => true) closeInFront init).map fun w =>
      w.log.contains (.moved (some 2) 1 [] ack)) = some true := by decide +kernel
  obtain ⟨w, hw, hlog⟩ := Option.map_eq_some_iff.mp h
  have hown := hall (fun _ => none) w (run_of_replay (fun _ _ _ => trivial) .init hw) _
    (List.contains_iff_mem.mp hlog)
  exact absurd (Option.some.inj hown) (by decide)

end ScoutComputer.Bluetooth
