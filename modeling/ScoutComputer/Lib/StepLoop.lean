import Mathlib.Tactic.Common

/-!
# Loops

`while (cond) body`, with a bound on its rounds. An invariant and a variant together say
that the loop ends and where it ends.
-/

namespace StepLoop

variable {α : Type*} {c : α → Bool} {f : α → α} {s t : α} {m n : Nat}

/-- The state in which the loop ends, if it takes less than `fuel` rounds. -/
def whileDo (cond : α → Bool) (body : α → α) : Nat → α → Option α
  | 0, _ => none
  | fuel + 1, s => if cond s then whileDo cond body fuel (body s) else some s

/-- A loop that ends does not use what it is given on top. -/
theorem whileDo_mono (h : whileDo c f n s = some t) (hnm : n ≤ m) :
    whileDo c f m s = some t := by
  induction n generalizing s m with
  | zero => exact absurd h (by simp [whileDo])
  | succ n ih =>
      obtain ⟨m, rfl⟩ : ∃ m', m = m' + 1 := ⟨m - 1, by omega⟩
      unfold whileDo at h ⊢
      split
      · rename_i hc
        rw [if_pos hc] at h
        exact ih h (by omega)
      · rename_i hc
        rw [if_neg hc] at h
        exact h

/-- **The rule for loops**: the body keeps the invariant and lowers the variant. -/
theorem exists_whileDo {J : α → Prop} (μ : α → Nat)
    (hbody : ∀ s, J s → c s = true → J (f s) ∧ μ (f s) < μ s) (h : J s) :
    ∃ n t, whileDo c f n s = some t ∧ J t ∧ c t = false := by
  induction hm : μ s using Nat.strongRecOn generalizing s with
  | ind m ih =>
      cases hc : c s with
      | false =>
          refine ⟨1, s, ?_, h, hc⟩
          unfold whileDo
          rw [hc]
          rfl
      | true =>
          obtain ⟨hJ, hlt⟩ := hbody s h hc
          obtain ⟨n, t, hrun, ht⟩ := ih (μ (f s)) (hm ▸ hlt) hJ rfl
          refine ⟨n + 1, t, ?_, ht⟩
          unfold whileDo
          rw [if_pos hc]
          exact hrun

end StepLoop
