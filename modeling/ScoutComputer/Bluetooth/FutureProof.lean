import ScoutComputer.Bluetooth.SlotProof

/-!
# Whose future is it

A tablet has one transaction record, and `data` in it changes hands: a code without a
case leaves the future of the code before it in place, and `get()` leaves none at all.
With one tablet at a time there is no crosstalk, and the future that is consulted is
the one the code was given exactly when the code was given one.
-/

namespace ScoutComputer

open Interact Steps

/-- A future is consulted for the code it was started for. -/
def Effect.Current : Effect → Prop
  | .consulted _ _ current => current = true
  | _ => True

/-- A future is consulted for a code that starts a job. -/
def Effect.ForKnownCode : Effect → Prop
  | .consulted _ c _ => startsJob c = true
  | _ => True

namespace Bluetooth

/-! ## One tablet at a time -/

/-- A tablet joins when there is none, and nobody resets the tablets. -/
def oneTablet {ρ : Type} (w : Bluetooth ρ) : Act → Bool
  | .updateAllBt (some _) _ => w.connectedTablets.isEmpty
  | .killSocket _ | .killAllSockets => false
  | _ => true

section
variable {ρ : Type} {A : Addressing ρ} {parse : List Byte → Option Json} {w w' : Bluetooth ρ}

/-- How many tablets there are. -/
def size (w : Bluetooth ρ) : Nat := w.connectedTablets.length

theorem size_modifyAt (w : Bluetooth ρ) (i : Nat) (f : BtTabObj ρ → BtTabObj ρ) :
    (w.modifyAt i f).size = w.size := List.length_modify ..

theorem size_modify (w : Bluetooth ρ) (p : ρ) (f : BtTabObj ρ → BtTabObj ρ) :
    (w.modify A p f).size = w.size := by
  unfold modify
  cases w.index A p with
  | none => rfl
  | some i => exact size_modifyAt w i f

theorem size_name (w : Bluetooth ρ) (p : ρ) (owner : Nat) (name : Option (List Byte)) :
    (w.name A p owner name).size = w.size := by
  cases name with
  | none => rfl
  | some name => exact size_modify w p _

theorem size_handled (w : Bluetooth ρ) (q : ρ) (owner : Nat) (caller : Caller) (r : Handled ρ) :
    (w.handled A q owner caller r).size = w.size := by
  unfold handled
  cases r.trans.parent with
  | none => exact size_modify w q _
  | some p =>
      have hname := size_name (A := A) ((w.modify A q (store r.trans)).note
        (.submitted owner r.statements)) p owner r.name
      have hstore : ((w.modify A q (store r.trans)).note (.submitted owner r.statements)).size =
        w.size := size_modify w q _
      cases caller with
      | ready i => exact hname.trans hstore
      | running i => exact (size_modify _ p _).trans (hname.trans hstore)

theorem size_killSocket {s : Socket} (h : w.killSocket s = some w') : w'.size ≤ w.size := by
  rcases killSocket_eq_some h with ⟨_, rfl⟩ | ⟨i, t, _, _, _, rfl⟩
  · exact Nat.le_refl _
  · exact List.length_eraseIdx_le _ i

theorem size_go {launch : Launch} {readWholeFile : Files}
    (h : w.go A parse launch readWholeFile = some w') : w'.size ≤ w.size := by
  unfold Bluetooth.go at h
  split at h
  · split at h
    · cases h
      exact Nat.le_refl _
    · cases h
      exact Nat.le_refl _
  · obtain ⟨r, _, h⟩ := Option.bind_eq_some_iff.mp h
    cases r with
    | none =>
        cases h
        exact Nat.le_refl _
    | some c =>
        obtain ⟨t, _, _, rfl⟩ := polled_some h
        exact Nat.le_of_eq (size_modifyAt w _ _)
  · rename_i i q _
    unfold startedTrans at h
    split at h
    · cases h
      exact Nat.le_refl _
    · dsimp only at h
      split at h
      · split at h
        · cases h
          exact Nat.le_refl _
        · obtain ⟨w₁, hw₁, rfl⟩ := Option.map_eq_some_iff.mp h
          have hle := size_killSocket hw₁
          exact hle
      · split at h
        · cases h
          exact Nat.le_refl _
        · cases h
          exact Nat.le_refl _
        · split at h
          · cases h
            exact Nat.le_refl _
          · cases h
            exact Nat.le_of_eq (size_modify _ _ _)
  · rcases handle_cases h with ⟨_, rfl⟩ | ⟨t, w₁, _, hconsult, hcase⟩
    · exact Nat.le_refl _
    · have hnoted : w₁.size = w.size := by
        rcases hconsult with rfl | rfl
        · rfl
        · rfl
      rcases hcase with ⟨_, _, rfl⟩ | rfl | ⟨r, _, rfl⟩
      · exact Nat.le_of_eq ((size_modify _ _ _).trans hnoted)
      · exact Nat.le_of_eq hnoted
      · exact Nat.le_of_eq ((size_handled _ _ _ _ _).trans hnoted)
  · cases h
    unfold checkRunning
    split
    · exact Nat.le_refl _
    · split
      · exact Nat.le_refl _
      · dsimp only
        split
        · exact Nat.le_refl _
        · exact Nat.le_refl _
        · exact Nat.le_refl _
  · exact absurd h (by simp)
  · exact absurd h (by simp)

/-- There is never more than one tablet. -/
theorem size_oneTablet {a : Act} (h : w.size ≤ 1) (hok : oneTablet w a = true)
    (hw : w.act A parse a = some w') : w'.size ≤ 1 := by
  unfold act at hw
  cases a with
  | updateAllBt peer grow =>
      dsimp only at hw
      split at hw
      · obtain ⟨w₁, hw₁, rfl⟩ := Option.map_eq_some_iff.mp hw
        cases peer with
        | none =>
            cases hw₁
            exact h
        | some peer =>
            have hempty : w.connectedTablets = [] := List.isEmpty_iff.mp hok
            unfold acceptConn at hw₁
            rw [hempty] at hw₁
            dsimp only at hw₁
            split at hw₁
            · exact absurd hw₁ (by simp)
            · split at hw₁
              · cases hw₁
                exact Nat.le_refl 1
              · cases hw₁
                exact Nat.le_refl 1
      · exact absurd hw (by simp)
  | call e =>
      dsimp only at hw
      unfold callReturned at hw
      split at hw
      · split at hw
        · split at hw
          · cases hw
            exact h
          · cases hw
            exact h
        · exact absurd hw (by simp)
      · exact absurd hw (by simp)
  | go launch readWholeFile => exact Nat.le_trans (size_go hw) h
  | job i e =>
      dsimp only at hw
      split at hw
      · exact absurd hw (by simp)
      · obtain ⟨t, s, prog, _, _, _, _, ⟨b, _, rfl⟩ | rfl⟩ := jobReturned_eq_some hw
        · exact Nat.le_trans (Nat.le_of_eq ((size_modify _ _ _).trans (size_modifyAt w i _))) h
        · exact Nat.le_trans (Nat.le_of_eq (size_modifyAt w i _)) h
  | killSocket deleteSock => exact Bool.noConfusion hok
  | killAllSockets => exact Bool.noConfusion hok

end

/-- One tablet has nobody behind it. -/
theorem slotSafe_of_oneTablet {w : Bluetooth (Nat × Nat)} {a : Act} (h : Inv slots w)
    (hsize : w.size ≤ 1) (hok : oneTablet w a = true) : slotSafe w a = true := by
  cases a with
  | call e => rfl
  | job i e => rfl
  | killSocket deleteSock => exact Bool.noConfusion hok
  | killAllSockets => exact Bool.noConfusion hok
  | updateAllBt peer grow =>
      cases peer with
      | none => rfl
      | some peer =>
          have hempty : w.connectedTablets = [] := List.isEmpty_iff.mp hok
          simp [slotSafe, noneBusyFrom, hempty]
  | go launch readWholeFile =>
      unfold slotSafe
      dsimp only
      split
      · rename_i i q hpc
        split
        · have hpcok := h.pc
          rw [hpc] at hpcok
          obtain ⟨t, ht, hfree, _⟩ := hpcok
          have hlone : w.connectedTablets = [t] ∧ i = 0 := by
            obtain ⟨hi, hget⟩ := List.getElem?_eq_some_iff.mp ht
            have hlen : w.connectedTablets.length = 1 := by
              unfold size at hsize
              omega
            obtain ⟨u, hu⟩ := List.length_eq_one_iff.mp hlen
            have hi0 : i = 0 := by omega
            subst hi0
            rw [hu] at ht
            exact ⟨by rw [hu, Option.some.inj ht], rfl⟩
          simp [noneBusyFrom, hlone.1, hlone.2, hfree]
        · rfl
      · rfl

/-- **With one tablet, every future is consulted for its own code or for a code without one.** -/
theorem consulted_currentIff {parse : List Byte → Option Json} {w : Bluetooth (Nat × Nat)}
    (h : Run slots parse (fun w a => oneTablet w a = true) w) : ∀ e ∈ w.log, e.CurrentIff := by
  have hrun := h.with_invariant (J := fun w => w.size ≤ 1) (Nat.zero_le 1)
    fun _ _ _ hs hok hw => size_oneTablet hs hok hw
  intro e he
  refine ((sound_run (fun _ _ _ hi hok hw => ?_) hrun).log e he).2
  exact stepKeeps_slots hi (slotSafe_of_oneTablet hi hok.2 hok.1) hw

/--
In every run of one tablet, all futures are consulted for the codes they were started
for, exactly when none is consulted for a code that starts no job.
-/
theorem consulted_current_iff (parse : List Byte → Option Json) (w : Bluetooth (Nat × Nat))
    (h : Run slots parse (fun w a => oneTablet w a = true) w) :
    (∀ e ∈ w.log, e.Current) ↔ ∀ e ∈ w.log, e.ForKnownCode := by
  have hiff := consulted_currentIff h
  refine forall₂_congr fun e he => ?_
  have hcur := hiff e he
  cases e with
  | consulted serial c current =>
      have hcur : current = startsJob c := hcur
      unfold Effect.Current Effect.ForKnownCode
      rw [hcur]
  | _ => exact Iff.rfl

/-- A tablet that sends a code nobody knows as its first. -/
def unknownCode : List Act := joins 10 :: sendsCode 253 ++ [onward, onward]

theorem consulted_current_iff_alone : ∃ w : Bluetooth (Nat × Nat),
    w.log.contains (.consulted 0 transRecvTabletInfo true) = true ∧
    ((∀ e ∈ w.log, e.Current) ↔ ∀ e ∈ w.log, e.ForKnownCode) := by
  have h : ((replay (act slots fun _ => none) oneTablet transferAlone init).map fun w =>
      w.log.contains (.consulted 0 transRecvTabletInfo true)) = some true := by decide +kernel
  obtain ⟨w, hw, hlog⟩ := Option.map_eq_some_iff.mp h
  exact ⟨w, hlog, consulted_current_iff (fun _ => none) w
    (run_of_replay (fun _ _ h => h) .init hw)⟩

/-- Its transaction has no future at all. -/
theorem unknownCode_consulted : ¬ ∀ (parse : List Byte → Option Json)
    (w : Bluetooth (Nat × Nat)), Run slots parse (fun w a => oneTablet w a = true) w →
      ∀ e ∈ w.log, e.Current := by
  intro hall
  have h : ((replay (act slots fun _ => none) oneTablet unknownCode init).map fun w =>
      w.log.contains (.consulted 0 (-3) false)) = some true := by decide +kernel
  obtain ⟨w, hw, hlog⟩ := Option.map_eq_some_iff.mp h
  have hcur := hall (fun _ => none) w (run_of_replay (fun _ _ h => h) .init hw) _
    (List.contains_iff_mem.mp hlog)
  exact Bool.noConfusion hcur

end Bluetooth

end ScoutComputer
