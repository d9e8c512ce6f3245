import ScoutComputer.Bluetooth.DeliveryProof

/-!
# The account of a tablet

Every code read from a tablet has had its result submitted, except the last one while it is
still under way; and the tablet goes by the last name its results gave it.
-/

namespace ScoutComputer

open Interact

/-- Whether an effect is the result of a transaction. -/
def Effect.isResult : Effect → Bool
  | .submitted _ _ => true
  | _ => false

/-- The name an effect gives. -/
def Effect.givenName : Effect → Option (List Byte)
  | .named _ _ name => some name
  | _ => none

/-- The effect neither is a result nor gives a name. -/
def Effect.Silent (e : Effect) : Prop := e.isResult = false ∧ e.givenName = none

/-- Between two calls of the public operations. -/
def Pc.atRest {ρ : Type} : Pc ρ → Bool
  | .idle => true
  | _ => false

theorem Pc.atRest_iff {ρ : Type} {pc : Pc ρ} : pc.atRest = true ↔ pc = .idle := by
  cases pc <;> simp [atRest]

namespace Bluetooth

variable {ρ : Type} {parse : List Byte → Option Json} {okCall : Event winsock → Prop}
  {okCode : TransactionType → Prop}

/-- How many results a log holds. -/
def results (log : List Effect) : Nat := log.countP Effect.isResult

/-- The names a log gives, in order. -/
def names (log : List Effect) : List (List Byte) := log.filterMap Effect.givenName

theorem results_append (log es : List Effect) : results (log ++ es) = results log + results es :=
  List.countP_append

theorem names_append (log es : List Effect) : names (log ++ es) = names log ++ names es :=
  List.filterMap_append

theorem results_silent {es : List Effect} (h : ∀ e ∈ es, Effect.Silent e) : results es = 0 :=
  List.countP_eq_zero.mpr fun e he => by simp [(h e he).1]

theorem names_silent {es : List Effect} (h : ∀ e ∈ es, Effect.Silent e) : names es = [] :=
  List.filterMap_eq_nil_iff.mpr fun e he => (h e he).2

theorem silent_jobEffect (n : Nat) (e : Event winsock) : Effect.Silent (jobEffect n e) := by
  unfold jobEffect
  split
  · exact ⟨rfl, rfl⟩
  · exact ⟨rfl, rfl⟩

theorem silent_asked {t : BtTabObj ρ} {e : Effect} (he : e ∈ asked t) : Effect.Silent e := by
  unfold asked at he
  split at he
  · rw [List.mem_singleton.mp he]
    exact ⟨rfl, rfl⟩
  · exact absurd he List.not_mem_nil

theorem results_concluded (t : BtTabObj ρ) (r : Handled ρ) : results (concluded t r) = 1 := by
  unfold concluded results
  cases r.name with
  | none => rfl
  | some name => rfl

theorem names_concluded (t : BtTabObj ρ) (r : Handled ρ) : names (concluded t r) = r.name.toList := by
  unfold concluded names
  cases r.name with
  | none => rfl
  | some name => rfl

/-- **The account** of a session: codes against results, and the name. -/
structure Session.Account (S : Session ρ) : Prop where
  codes : S.tablet.codesRead = results S.log + if S.attended then 1 else 0
  name : S.tablet.tabScoutingName = (names S.log).getLast?.getD S.tablet.macStr

/-- Nothing on the account has changed. -/
theorem Session.Account.silent {a : Bool} {t t' : BtTabObj ρ} {log es : List Effect}
    (h : Session.Account ⟨a, t, log⟩) (hes : ∀ e ∈ es, Effect.Silent e)
    (hcodes : t'.codesRead = t.codesRead) (hname : t'.tabScoutingName = t.tabScoutingName)
    (hmac : t'.macStr = t.macStr) : Session.Account ⟨a, t', log ++ es⟩ := by
  refine ⟨?_, ?_⟩
  · show t'.codesRead = results (log ++ es) + _
    rw [results_append, results_silent hes, hcodes]
    exact h.codes
  · show t'.tabScoutingName = (names (log ++ es)).getLast?.getD t'.macStr
    rw [names_append, names_silent hes, List.append_nil, hname, hmac]
    exact h.name

/-- A result closes the code it is for, and gives the tablet its name. -/
theorem Session.Account.conclude {t : BtTabObj ρ} {log es : List Effect} {r : Handled ρ}
    (h : Session.Account ⟨true, t, log⟩)
    (hes : ∀ e ∈ es, e = .released (some t.serial) t.serial) :
    Session.Account ⟨false, setTransactionState false (settle r t),
      log ++ (asked t ++ concluded t r ++ es)⟩ := by
  have hquiet : ∀ e ∈ es, Effect.Silent e := by
    intro e he
    rw [hes e he]
    exact ⟨rfl, rfl⟩
  have hcodes : t.codesRead = results log + 1 := h.codes
  have hname : t.tabScoutingName = (names log).getLast?.getD t.macStr := h.name
  refine ⟨?_, ?_⟩
  · show t.codesRead = results (log ++ (asked t ++ concluded t r ++ es)) + 0
    simp only [results_append, results_silent fun e he => silent_asked (t := t) he,
      results_concluded, results_silent hquiet]
    omega
  · show r.name.getD t.tabScoutingName =
      (names (log ++ (asked t ++ concluded t r ++ es))).getLast?.getD t.macStr
    simp only [names_append, names_silent fun e he => silent_asked (t := t) he, names_concluded,
      names_silent hquiet, List.nil_append, List.append_nil]
    cases r.name with
    | none =>
        rw [Option.toList_none, List.append_nil]
        exact hname
    | some name => simp

/-- **Preserved by every step** of a session. -/
theorem Session.Account.step {S S' : Session ρ} (h : Session.Account S)
    (hs : Session.Step parse okCall okCode S S') : Session.Account S' := by
  have hconsult : ∀ {t : BtTabObj ρ}, ∀ e ∈ [consultation t], Effect.Silent e := by
    intro t e he
    rw [List.mem_singleton.mp he]
    exact ⟨rfl, rfl⟩
  cases hs with
  | @serve self launch readWholeFile c t log _ _ _ =>
      refine ⟨?_, h.name⟩
      have hcodes : t.codesRead = results log + 0 := h.codes
      show t.codesRead + 1 = results log + 1
      omega
  | consult => exact h.silent hconsult rfl rfl rfl
  | queue _ => exact h.silent hconsult rfl rfl rfl
  | @work s prog e t log _ _ _ _ _ =>
      refine h.silent (fun e' he' => ?_) ?_ ?_ ?_
      · rw [List.mem_singleton.mp he']
        exact silent_jobEffect _ _
      · unfold worked
        split <;> rfl
      · unfold worked
        split <;> rfl
      · unfold worked
        split <;> rfl
  | ask => exact h.silent (fun e he => silent_asked he) rfl rfl rfl
  | wait _ => exact h.silent (fun e he => silent_asked he) rfl rfl rfl
  | conclude _ hes => exact h.conclude hes
  | close =>
      refine h.silent (fun e he => ?_) rfl rfl rfl
      rw [List.mem_singleton.mp he]
      exact ⟨rfl, rfl⟩

theorem Session.Run.account {S : Session ρ} (h : Session.Run parse okCall okCode S) :
    Session.Account S := by
  refine h.invariant (fun _ _ _ => ?_) fun S S' hS hs => hS.step hs
  exact ⟨rfl, rfl⟩

/-- A tablet in the table is in a session that has its account. -/
theorem account_of_tablet {w : Bluetooth (Nat × Nat)} {j : Nat} {t : BtTabObj (Nat × Nat)}
    (h : Run slots parse (fun w a => slotSafe w a = true) w) (hpc : w.pc ≠ .crashed)
    (ht : w.connectedTablets[j]? = some t) :
    Session.Account ⟨attended w.pc j t, t, mine t.serial w.log⟩ := by
  obtain ⟨hsound, hsessions⟩ := sessions_run (fun _ _ _ hi hok hw => stepKeeps_slots hi hok hw)
    lets_trivial h
  have hinv : Inv slots w := hsound.resolve_right fun hc => hpc hc.1
  have hserial := hinv.fresh _ (List.mem_map_of_mem (List.mem_of_getElem? ht))
  obtain ⟨S, hrun, _, hlog, htablet⟩ := hsessions.each _ hserial
  obtain ⟨rfl, hatt⟩ := htablet j t ht rfl
  rw [← hlog, ← hatt hpc]
  exact hrun.account

/--
**Every code is handled once**: in every run in which slots keep their tablets, and as long as
the server has not crashed, a tablet has had one result submitted for each code that was read
from it (a reading that failed counts as one), but for the code under way, of which there is
one exactly while the tablet undergoes a transaction or the main thread attends to it; and it
goes by the last name it was given, or by its address.
-/
theorem account_of_slotSafe (parse : List Byte → Option Json) (w : Bluetooth (Nat × Nat))
    (h : Run slots parse (fun w a => slotSafe w a = true) w) (hpc : w.pc ≠ .crashed) (j : Nat)
    (t : BtTabObj (Nat × Nat)) (ht : w.connectedTablets[j]? = some t) :
    t.codesRead = results (mine t.serial w.log) +
      (if t.transactionState = true ∨ w.pc.focus = some j then 1 else 0) ∧
    t.tabScoutingName = (names (mine t.serial w.log)).getLast?.getD t.macStr := by
  have haccount := account_of_tablet h hpc ht
  refine ⟨haccount.codes.trans ?_, haccount.name⟩
  unfold attended
  simp only [Bool.or_eq_true, decide_eq_true_eq]

theorem account_of_slotSafe_red : ∃ w : Bluetooth (Nat × Nat), ∃ t,
    w.connectedTablets[0]? = some t ∧ t.codesRead = results (mine t.serial w.log) + 0 ∧
    t.tabScoutingName = (names (mine t.serial w.log)).getLast?.getD t.macStr ∧
    t.tabScoutingName = bytes "red" := by
  have h : ((Steps.replay (act slots fun _ => none) slotSafe namesItself init).bind fun w =>
      w.connectedTablets[0]?.map fun t => (t.transactionState, t.tabScoutingName, w.pc.atRest)) =
        some (false, bytes "red", true) := by decide +kernel
  obtain ⟨w, hw, h⟩ := Option.bind_eq_some_iff.mp h
  obtain ⟨t, ht, h⟩ := Option.map_eq_some_iff.mp h
  obtain ⟨hfree, hname, hidle⟩ : t.transactionState = false ∧ t.tabScoutingName = bytes "red" ∧
      w.pc = .idle := by
    simpa only [Prod.mk.injEq, Pc.atRest_iff] using h
  have haccount := account_of_slotSafe (fun _ => none) w
    (Steps.run_of_replay (fun _ _ h => h) .init hw) (by simp [hidle]) 0 t ht
  rw [hfree, hidle, if_neg (by simp [Pc.focus])] at haccount
  exact ⟨w, t, ht, haccount.1, haccount.2, hname⟩

end Bluetooth

end ScoutComputer
