import Mathlib.Data.List.Forall2

/-!
# Loops that give up at the first failure

A loop that decodes the elements of a list one after the other, and stops at the first
one that cannot be decoded, ends with the decodings of the longest prefix in which every
element decodes.
-/

namespace LongestPrefix

variable {α : Type*} {β : Type*}

/-- `rs` are the decodings of the longest prefix of `es` that decodes, one for each element. -/
def IsLongest (R : α → β → Prop) (es : List α) (rs : List β) : Prop :=
  ∃ pre post, es = pre ++ post ∧ List.Forall₂ R pre rs ∧
    ∀ e, post.head? = some e → ∀ r, ¬ R e r

/-- The decodings of the elements in front of the first one that does not decode. -/
def decoded (decode : α → Option β) : List α → List β
  | [] => []
  | e :: es =>
      match decode e with
      | none => []
      | some r => r :: decoded decode es

theorem decoded_none {decode : α → Option β} {e : α} (h : decode e = none) (es : List α) :
    decoded decode (e :: es) = [] := by
  rw [decoded, h]

theorem decoded_some {decode : α → Option β} {e : α} {r : β} (h : decode e = some r)
    (es : List α) : decoded decode (e :: es) = r :: decoded decode es := by
  rw [decoded, h]

theorem decoded_eq_nil {decode : α → Option β} {es : List α} :
    decoded decode es = [] ↔ es.head?.bind decode = none := by
  cases es with
  | nil => exact ⟨fun _ => rfl, fun _ => rfl⟩
  | cons e es =>
      show decoded decode (e :: es) = [] ↔ decode e = none
      cases hd : decode e with
      | none => exact ⟨fun _ => rfl, fun _ => decoded_none hd es⟩
      | some r =>
          rw [decoded_some hd]
          exact ⟨fun h => absurd h (by simp), fun h => absurd h (by simp)⟩

/-- When every element decodes, the prefix is everything. -/
theorem map_some_decoded {decode : α → Option β} {es : List α}
    (h : ∀ e ∈ es, (decode e).isSome) : es.map decode = (decoded decode es).map some := by
  induction es with
  | nil => rfl
  | cons e es ih =>
      obtain ⟨r, hr⟩ := Option.isSome_iff_exists.mp (h e List.mem_cons_self)
      rw [decoded_some hr, List.map_cons, List.map_cons, hr,
        ih fun e' h' => h e' (List.mem_cons_of_mem e h')]

/-- A decoding is in the result when it is that of an element with only decodable ones before. -/
theorem mem_decoded {decode : α → Option β} {es : List α} {r : β} :
    r ∈ decoded decode es ↔ ∃ pre e post, es = pre ++ e :: post ∧
      (∀ x ∈ pre, decode x ≠ none) ∧ decode e = some r := by
  induction es with
  | nil =>
      refine ⟨fun h => absurd h List.not_mem_nil, ?_⟩
      intro ⟨pre, e, post, hes, _⟩
      exact absurd hes (by simp)
  | cons x es ih =>
      cases hx : decode x with
      -- an element that does not decode ends the loop
      | none =>
          rw [decoded_none hx]
          refine ⟨fun h => absurd h List.not_mem_nil, ?_⟩
          intro ⟨pre, e, post, hes, hpre, he⟩
          cases pre with
          | nil =>
              rw [List.nil_append, List.cons.injEq] at hes
              rw [← hes.1, hx] at he
              exact absurd he (by simp)
          | cons y pre =>
              rw [List.cons_append, List.cons.injEq] at hes
              exact absurd (hes.1 ▸ hx) (hpre y List.mem_cons_self)
      | some t =>
          rw [decoded_some hx, List.mem_cons, ih]
          constructor
          · intro h
            rcases h with h | ⟨pre, e, post, hes, hpre, he⟩
            · exact ⟨[], x, es, rfl, by simp, h ▸ hx⟩
            · refine ⟨x :: pre, e, post, by rw [hes, List.cons_append], ?_, he⟩
              intro y hy
              rcases List.mem_cons.mp hy with hy | hy
              · rw [hy, hx]
                simp
              · exact hpre y hy
          · intro ⟨pre, e, post, hes, hpre, he⟩
            cases pre with
            | nil =>
                rw [List.nil_append, List.cons.injEq] at hes
                rw [← hes.1, hx] at he
                exact Or.inl (Option.some.inj he).symm
            | cons y pre =>
                rw [List.cons_append, List.cons.injEq] at hes
                exact Or.inr ⟨pre, e, post, hes.2,
                  fun z hz => hpre z (List.mem_cons_of_mem y hz), he⟩

/-- **The loop rule**, for a loop that is known by its equations. -/
theorem loop_eq {decode : α → Option β} {loop : List α → List β → List β}
    (hnil : ∀ acc, loop [] acc = acc)
    (hstop : ∀ e es acc, decode e = none → loop (e :: es) acc = acc)
    (hgo : ∀ e es acc r, decode e = some r → loop (e :: es) acc = loop es (acc ++ [r]))
    (es : List α) (acc : List β) : loop es acc = acc ++ decoded decode es := by
  induction es generalizing acc with
  | nil => rw [hnil, decoded, List.append_nil]
  | cons e es ih =>
      cases hd : decode e with
      | none => rw [hstop e es acc hd, decoded_none hd, List.append_nil]
      | some r =>
          rw [hgo e es acc r hd, ih, decoded_some hd, List.append_assoc, List.singleton_append]

/-- What comes before the first failure is the longest prefix. -/
theorem isLongest_decoded {decode : α → Option β} {R : α → β → Prop}
    (hR : ∀ e r, decode e = some r ↔ R e r) (es : List α) :
    IsLongest R es (decoded decode es) := by
  induction es with
  | nil => exact ⟨[], [], rfl, .nil, fun e h => absurd h (by simp)⟩
  | cons e es ih =>
      cases hd : decode e with
      | none =>
          rw [decoded_none hd]
          refine ⟨[], e :: es, rfl, .nil, ?_⟩
          intro e' he' r hr
          have heq : e = e' := Option.some.inj he'
          rw [← heq, ← hR, hd] at hr
          exact absurd hr (by simp)
      | some r =>
          obtain ⟨pre, post, hes, hall, hstop⟩ := ih
          rw [decoded_some hd]
          exact ⟨e :: pre, post, by rw [hes, List.cons_append], .cons ((hR e r).mp hd) hall, hstop⟩

/-- There is no other longest prefix. -/
theorem IsLongest.eq_decoded {decode : α → Option β} {R : α → β → Prop}
    (hR : ∀ e r, decode e = some r ↔ R e r) {es : List α} {rs : List β} (h : IsLongest R es rs) :
    rs = decoded decode es := by
  obtain ⟨pre, post, rfl, hall, hstop⟩ := h
  induction hall with
  | nil =>
      cases post with
      | nil => rfl
      | cons e post =>
          have hnone : decode e = none := by
            rw [Option.eq_none_iff_forall_ne_some]
            intro r hr
            exact hstop e rfl r ((hR e r).mp hr)
          exact (decoded_none hnone post).symm
  | cons hr _ ih => rw [List.cons_append, decoded_some ((hR _ _).mpr hr), ih]

end LongestPrefix
