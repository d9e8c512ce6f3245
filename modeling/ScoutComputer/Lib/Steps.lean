import Mathlib.Tactic.Common

/-!
# Runs of a partial step function

A system is a state, an initial state and a partial step function. `Run` collects the
states its runs reach when every step meets a condition; an invariant is proved once for
a step and holds of every run, and a list of steps can be replayed.
-/

namespace Steps

variable {σ : Type*} {α : Type*}

/-- The states reached from `init` by steps that all meet `ok`. -/
inductive Run (step : σ → α → Option σ) (ok : σ → α → Prop) (init : σ) : σ → Prop where
  | init : Run step ok init init
  | step {s s' : σ} {a : α} : Run step ok init s → ok s a → step s a = some s' →
      Run step ok init s'

variable {step : σ → α → Option σ} {ok : σ → α → Prop} {init s s' : σ}

/-- **The invariant rule.** -/
theorem Run.invariant {J : σ → Prop} (h : Run step ok init s) (h0 : J init)
    (hJ : ∀ s s' a, J s → ok s a → step s a = some s' → J s') : J s := by
  induction h with
  | init => exact h0
  | step _ ha hs ih => exact hJ _ _ _ ih ha hs

/-- What every step keeps may be assumed of every step. -/
theorem Run.with_invariant {J : σ → Prop} (h : Run step ok init s) (h0 : J init)
    (hJ : ∀ s s' a, J s → ok s a → step s a = some s' → J s') :
    Run step (fun s a => ok s a ∧ J s) init s := by
  induction h with
  | init => exact .init
  | step hr ha hs ih => exact ih.step ⟨ha, hr.invariant h0 hJ⟩ hs

/-- Take the steps of a list, as long as each meets a check. -/
def replay (step : σ → α → Option σ) (check : σ → α → Bool) : List α → σ → Option σ
  | [], s => some s
  | a :: as, s => if check s a then (step s a).bind (replay step check as) else none

theorem run_of_replay {check : σ → α → Bool} (hok : ∀ s a, check s a = true → ok s a)
    {as : List α} (hs : Run step ok init s) (h : replay step check as s = some s') :
    Run step ok init s' := by
  induction as generalizing s with
  | nil =>
      cases h
      exact hs
  | cons a as ih =>
      unfold replay at h
      split at h
      · rename_i ha
        obtain ⟨s₁, hs₁, h⟩ := Option.bind_eq_some_iff.mp h
        exact ih (hs.step (hok _ _ ha) hs₁) h
      · exact absurd h (by simp)

/-- The steps from `s` to `s'`, each with the state it is taken in, where it meets `ok`. -/
inductive Path (step : σ → α → Option σ) (ok : σ → α → Prop) : σ → List (σ × α) → σ → Prop where
  | nil {s : σ} : Path step ok s [] s
  | cons {s s₁ s' : σ} {a : α} {l : List (σ × α)} : ok s a → step s a = some s₁ →
      Path step ok s₁ l s' → Path step ok s ((s, a) :: l) s'

theorem Path.ok_of_mem {l : List (σ × α)} (h : Path step ok s l s') {x : σ × α} (hx : x ∈ l) :
    ok x.1 x.2 := by
  induction h with
  | nil => exact absurd hx List.not_mem_nil
  | cons ha _ _ ih =>
      rcases List.mem_cons.mp hx with rfl | hx
      · exact ha
      · exact ih hx

/-- Take the steps of a list as `replay` does, and keep the states they are taken in. -/
def record (step : σ → α → Option σ) (check : σ → α → Bool) :
    List α → σ → Option (List (σ × α) × σ)
  | [], s => some ([], s)
  | a :: as, s =>
      if check s a then
        (step s a).bind fun s₁ => (record step check as s₁).map fun r => ((s, a) :: r.1, r.2)
      else none

theorem path_of_record {check : σ → α → Bool} (hok : ∀ s a, check s a = true → ok s a)
    {as : List α} {l : List (σ × α)} (h : record step check as s = some (l, s')) :
    Path step ok s l s' := by
  induction as generalizing s l with
  | nil =>
      cases h
      exact .nil
  | cons a as ih =>
      unfold record at h
      split at h
      · rename_i ha
        obtain ⟨s₁, hs₁, h⟩ := Option.bind_eq_some_iff.mp h
        obtain ⟨⟨l', s₂⟩, hr, heq⟩ := Option.map_eq_some_iff.mp h
        cases heq
        exact .cons (hok _ _ ha) hs₁ (ih hr)
      · exact absurd h (by simp)

end Steps
