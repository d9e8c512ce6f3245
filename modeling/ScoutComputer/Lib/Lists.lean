import Mathlib.Data.List.Nodup
import Mathlib.Tactic.Common

/-!
# Lists

What the libraries do not say about a list of which one element is changed or taken out,
and about a map that may fail at an element.
-/

namespace Lists

variable {α : Type*} {β : Type*}

section
variable {f : α → α} {g : α → β}

/-- Where `g` does not see the change, the mapped list stays as it is. -/
theorem map_modify_of_get {l : List α} {i : Nat} {a : α} (ha : l[i]? = some a)
    (h : g (f a) = g a) : (l.modify i f).map g = l.map g := by
  refine List.ext_getElem? fun j => ?_
  rw [List.getElem?_map, List.getElem?_map, List.getElem?_modify]
  by_cases hij : i = j
  · subst hij
    simp [ha, h]
  · simp [hij]

theorem map_modify_of_eq (h : ∀ a, g (f a) = g a) (l : List α) (i : Nat) :
    (l.modify i f).map g = l.map g := by
  cases ha : l[i]? with
  | none => rw [List.modify_eq_self (List.getElem?_eq_none_iff.mp ha)]
  | some a => exact map_modify_of_get ha (h a)

/-- Where `g` sees the same in every changed element, the change sets it. -/
theorem map_modify_set {l : List α} {i : Nat} {b : β} (h : ∀ a, g (f a) = b) :
    (l.modify i f).map g = (l.map g).set i b := by
  refine List.ext_getElem? fun j => ?_
  rw [List.getElem?_map, List.getElem?_modify, List.getElem?_set, List.length_map]
  by_cases hij : i = j
  · subst hij
    by_cases hi : i < l.length
    · simp [hi, h]
    · simp [hi]
  · simp [hij]

end

theorem mem_eraseIdx_of_nodup {l : List α} (hn : l.Nodup) {i : Nat} {a : α}
    (hi : l[i]? = some a) (b : α) : b ∈ l.eraseIdx i ↔ b ∈ l ∧ b ≠ a := by
  classical
  obtain ⟨hlt, hget⟩ := List.getElem?_eq_some_iff.mp hi
  rw [← hn.erase_getElem i hlt, hget, hn.mem_erase_iff, and_comm]

/-- A map that fails nowhere is a map. -/
theorem mapM_eq_some_iff {f : α → Option β} {xs : List α} {ys : List β} :
    xs.mapM f = some ys ↔ xs.map f = ys.map some := by
  induction xs generalizing ys with
  | nil =>
      rw [List.mapM_nil, List.map_nil]
      refine ⟨fun h => ?_, fun h => ?_⟩
      · rw [← Option.some.inj h]
        rfl
      · rw [List.map_eq_nil_iff.mp h.symm]
        rfl
  | cons x xs ih =>
      rw [List.mapM_cons, List.map_cons, Option.bind_eq_bind, Option.bind_eq_some_iff]
      constructor
      · intro ⟨y, hy, h⟩
        obtain ⟨rest, hrest, h⟩ := Option.bind_eq_some_iff.mp h
        rw [← Option.some.inj h, hy, List.map_cons, ih.mp hrest]
      · intro h
        cases ys with
        | nil => exact absurd h (by simp)
        | cons y ys =>
            rw [List.map_cons, List.cons.injEq] at h
            exact ⟨y, h.1, by rw [ih.mpr h.2]; rfl⟩

theorem mapM_of_ne_none {f : α → Option β} {xs : List α}
    (h : ∀ x ∈ xs, f x ≠ none) : ∃ ys, xs.mapM f = some ys := by
  induction xs with
  | nil => exact ⟨[], rfl⟩
  | cons x xs ih =>
      obtain ⟨y, hy⟩ := Option.ne_none_iff_exists'.mp (h x List.mem_cons_self)
      obtain ⟨ys, hys⟩ := ih fun z hz => h z (List.mem_cons_of_mem x hz)
      refine ⟨y :: ys, ?_⟩
      rw [List.mapM_cons, hy, hys]
      rfl

end Lists
