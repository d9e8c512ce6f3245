import Mathlib.Algebra.GroupWithZero.Nat
import Mathlib.Algebra.Order.BigOperators.Group.List
import ScoutComputer.Lib.Steps

/-!
# Variants of a partial step function

A variant bounds what a path can spend, and a variant that can always be made to fall
leads to its goal.
-/

namespace Steps

variable {σ : Type*} {α : Type*} {step : σ → α → Option σ} {ok : σ → α → Prop} {s s₁ s' : σ}

theorem Path.append {l l' : List (σ × α)} (h : Path step ok s l s₁) (h' : Path step ok s₁ l' s') :
    Path step ok s (l ++ l') s' := by
  induction h with
  | nil => exact h'
  | cons ha hs _ ih => exact .cons ha hs (ih h')

theorem Path.single {a : α} (ha : ok s a) (hs : step s a = some s') :
    Path step ok s [(s, a)] s' := .cons ha hs .nil

theorem Path.mono {ok' : σ → α → Prop} {l : List (σ × α)} (hok : ∀ s a, ok s a → ok' s a)
    (h : Path step ok s l s') : Path step ok' s l s' := by
  induction h with
  | nil => exact .nil
  | cons ha hs _ ih => exact .cons (hok _ _ ha) hs ih

theorem Path.invariant {J : σ → Prop} {l : List (σ × α)} (h : Path step ok s l s') (h0 : J s)
    (hJ : ∀ s s' a, J s → ok s a → step s a = some s' → J s') : J s' := by
  induction h with
  | nil => exact h0
  | cons ha hs _ ih => exact ih (hJ _ _ _ h0 ha hs)

/-- **A path spends no more than its variant falls by**: a step of each kind has its cost. -/
theorem Path.cost_le (μ : σ → Nat) (cost : α → Nat)
    (hstep : ∀ s s' a, ok s a → step s a = some s' → cost a + μ s' ≤ μ s)
    {l : List (σ × α)} (h : Path step ok s l s') :
    (l.map fun x => cost x.2).sum + μ s' ≤ μ s := by
  induction h with
  | nil => simp
  | cons ha hs _ ih =>
      have hone := hstep _ _ _ ha hs
      rw [List.map_cons, List.sum_cons]
      dsimp only
      omega

/-- **A variant that can always be made to fall leads to the goal.** -/
theorem exists_path_of_variant {J goal : σ → Prop} (μ : σ → Nat)
    (hfall : ∀ s, J s → ¬ goal s → ∃ l s', Path step ok s l s' ∧ J s' ∧ μ s' < μ s) (h : J s) :
    ∃ l s', Path step ok s l s' ∧ J s' ∧ goal s' := by
  induction hm : μ s using Nat.strongRecOn generalizing s with
  | ind m ih =>
      by_cases hg : goal s
      · exact ⟨[], s, .nil, h, hg⟩
      · obtain ⟨l, s₁, hl, h₁, hlt⟩ := hfall s h hg
        obtain ⟨l', s', hl', h', hg'⟩ := ih (μ s₁) (hm ▸ hlt) h₁ rfl
        exact ⟨l ++ l', s', hl.append hl', h', hg'⟩

end Steps
