import Mathlib.Data.List.Basic

/-!
# Lists of entries with a separator between them

Entries that can be told from what follows them, be it the end or a separator, can be
read back from their concatenation. That no entry has the separator in it is one way to
ensure this, and not the only one.
-/

namespace Separated

variable {α : Type*}

/-- The entries one after the other, with `sep` in between. -/
def joined (sep : α) : List (List α) → List α
  | [] => []
  | e :: es => e ++ es.flatMap fun e => sep :: e

/-- What can follow an entry. -/
inductive Follows (sep : α) : List α → Prop where
  | nil : Follows sep []
  | cons (rest : List α) : Follows sep (sep :: rest)

/-- An entry with the property ends where it has to. -/
def SelfDelimiting (sep : α) (P : List α → Prop) : Prop :=
  ∀ e e' rest rest', P e → P e' → Follows sep rest → Follows sep rest' →
    e ++ rest = e' ++ rest' → e = e'

theorem follows_flatMap (sep : α) (es : List (List α)) :
    Follows sep (es.flatMap fun e => sep :: e) := by
  cases es with
  | nil => exact .nil
  | cons e es => exact .cons _

/-- **Self-delimiting entries can be read back.** -/
theorem joined_inj {sep : α} {P : List α → Prop} (h : SelfDelimiting sep P)
    {es es' : List (List α)} (hes : ∀ e ∈ es, P e) (hes' : ∀ e ∈ es', P e)
    (hne : es ≠ []) (hne' : es' ≠ []) (heq : joined sep es = joined sep es') : es = es' := by
  induction es generalizing es' with
  | nil => exact absurd rfl hne
  | cons e es ih =>
      cases es' with
      | nil => exact absurd rfl hne'
      | cons e' es' =>
          have hhead : e = e' := h e e' _ _ (hes e List.mem_cons_self) (hes' e' List.mem_cons_self)
            (follows_flatMap sep es) (follows_flatMap sep es') heq
          subst hhead
          have htail : (es.flatMap fun e => sep :: e) = es'.flatMap fun e => sep :: e :=
            List.append_cancel_left heq
          cases es with
          | nil =>
              cases es' with
              | nil => rfl
              | cons f' fs' => exact absurd htail (by simp)
          | cons f fs =>
              cases es' with
              | nil => exact absurd htail (by simp)
              | cons f' fs' =>
                  have hrest : f :: fs = f' :: fs' :=
                    ih (fun x hx => hes x (List.mem_cons_of_mem e hx))
                      (fun x hx => hes' x (List.mem_cons_of_mem e hx)) (List.cons_ne_nil f fs)
                      (List.cons_ne_nil f' fs') (List.cons.inj htail).2
                  rw [hrest]

/-- Text without the separator ends where the separator comes. -/
theorem selfDelimiting_of_notMem (sep : α) : SelfDelimiting sep fun e => sep ∉ e := by
  intro e e' rest rest' he he' hr hr' heq
  induction e generalizing e' with
  | nil =>
      cases e' with
      | nil => rfl
      | cons c' e' =>
          cases hr with
          | nil => exact absurd heq (by simp)
          | cons t =>
              have hc : sep = c' := (List.cons.inj heq).1
              exact absurd (hc ▸ List.mem_cons_self) he'
  | cons c e ih =>
      cases e' with
      | nil =>
          cases hr' with
          | nil => exact absurd heq (by simp)
          | cons t =>
              have hc : c = sep := (List.cons.inj heq).1
              exact absurd (hc ▸ List.mem_cons_self) he
      | cons c' e' =>
          obtain ⟨hc, hrest⟩ := List.cons.inj heq
          rw [hc, ih e' (fun h => he (List.mem_cons_of_mem c h))
            (fun h => he' (List.mem_cons_of_mem c' h)) hrest]

/-- The last separator splits a text. -/
theorem append_cons_inj {sep : α} {x x' y y' : List α} (hy : sep ∉ y) (hy' : sep ∉ y')
    (h : x ++ sep :: y = x' ++ sep :: y') : x = x' ∧ y = y' := by
  have hrev : y.reverse ++ sep :: x.reverse = y'.reverse ++ sep :: x'.reverse := by
    have := congrArg List.reverse h
    simpa using this
  have hyy : y.reverse = y'.reverse := selfDelimiting_of_notMem sep _ _ _ _
    (fun hm => hy (List.mem_reverse.mp hm)) (fun hm => hy' (List.mem_reverse.mp hm))
    (.cons _) (.cons _) hrev
  have hy_eq : y = y' := List.reverse_injective hyy
  subst hy_eq
  exact ⟨List.append_cancel_right h, rfl⟩

theorem eq_or_mem_of_mem_intercalate {sep c : α} {ls : List (List α)}
    (h : c ∈ [sep].intercalate ls) : c = sep ∨ ∃ l ∈ ls, c ∈ l := by
  induction ls with
  | nil => exact absurd h List.not_mem_nil
  | cons l ls ih =>
      by_cases hls : ls = []
      · subst hls
        rw [List.intercalate_singleton] at h
        exact Or.inr ⟨l, List.mem_singleton_self l, h⟩
      · rw [List.intercalate_cons_of_ne_nil hls, List.append_assoc] at h
        rcases List.mem_append.mp h with h | h
        · exact Or.inr ⟨l, List.mem_cons_self, h⟩
        · rcases List.mem_cons.mp h with h | h
          · exact Or.inl h
          · rcases ih h with h | ⟨m, hm, h⟩
            · exact Or.inl h
            · exact Or.inr ⟨m, List.mem_cons_of_mem l hm, h⟩

end Separated
