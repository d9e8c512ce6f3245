import Mathlib.Data.List.Nodup
import Mathlib.Tactic.Common

/-!
# An index loop that erases where it stands

A loop over a vector looks at the element at its index, may erase that element, and goes
on to the next index all the same. What comes directly behind an erased element has by
then moved up to the index just left, and is skipped.
-/

namespace EraseLoop

variable {α β : Type*}

/--
What the loop makes of the elements `l` from its index on: the elements it comes to, each
with what it finds there, and the elements that are left. An element goes if `leaves`
holds of what is found.
-/
inductive Walk (leaves : β → Prop) : List α → List (α × β) → List α → Prop where
  | done : Walk leaves [] [] []
  | keep {a : α} {b : β} {l : List α} {vs : List (α × β)} {rest : List α} :
      ¬ leaves b → Walk leaves l vs rest → Walk leaves (a :: l) ((a, b) :: vs) (a :: rest)
  | erase {a : α} {b : β} {l : List α} {vs : List (α × β)} {rest : List α} :
      leaves b → Walk leaves l.tail vs rest →
      Walk leaves (a :: l) ((a, b) :: vs) (l.take 1 ++ rest)

/-- `x` comes directly behind `a`. -/
def Next (l : List α) (a x : α) : Prop := ∃ i, l[i]? = some a ∧ l[i + 1]? = some x

theorem next_cons {l : List α} {a b x : α} :
    Next (b :: l) a x ↔ b = a ∧ l[0]? = some x ∨ Next l a x := by
  constructor
  · intro ⟨i, ha, hx⟩
    cases i with
    | zero => exact Or.inl ⟨Option.some.inj ha, hx⟩
    | succ i => exact Or.inr ⟨i, ha, hx⟩
  · rintro (⟨rfl, hx⟩ | ⟨i, ha, hx⟩)
    · exact ⟨0, rfl, hx⟩
    · exact ⟨i + 1, ha, hx⟩

theorem Next.mem {l : List α} {a x : α} (h : Next l a x) : a ∈ l ∧ x ∈ l :=
  let ⟨_, ha, hx⟩ := h
  ⟨List.mem_of_getElem? ha, List.mem_of_getElem? hx⟩

variable {leaves : β → Prop} {l rest : List α} {vs : List (α × β)}

theorem Walk.rest_sublist (h : Walk leaves l vs rest) : rest.Sublist l := by
  induction h with
  | done => exact List.Sublist.refl _
  | keep _ _ ih => exact ih.cons_cons _
  | @erase a b l vs rest _ _ ih =>
      cases l with
      | nil => exact ih.cons _
      | cons c l => exact (ih.cons_cons c).cons a

theorem Walk.visited_sublist (h : Walk leaves l vs rest) : (vs.map Prod.fst).Sublist l := by
  induction h with
  | done => exact List.Sublist.refl _
  | keep _ _ ih => exact ih.cons_cons _
  | @erase a b l vs rest _ _ ih => exact (ih.trans (List.tail_sublist l)).cons_cons _

theorem Walk.mem_of_visited (h : Walk leaves l vs rest) {a : α} {b : β} (hm : (a, b) ∈ vs) :
    a ∈ l := h.visited_sublist.subset (List.mem_map_of_mem hm)

/-- **What is skipped** is what comes directly behind an element that was erased. -/
theorem Walk.skipped_iff (h : Walk leaves l vs rest) (hn : l.Nodup) {x : α} (hx : x ∈ l) :
    x ∉ vs.map Prod.fst ↔ ∃ a b, (a, b) ∈ vs ∧ leaves b ∧ Next l a x := by
  induction h with
  | done => exact absurd hx List.not_mem_nil
  | @keep c b l vs rest hb hw ih =>
      obtain ⟨hc, hn⟩ := List.nodup_cons.mp hn
      have hnext : ∀ a b', (a, b') ∈ vs → (Next (c :: l) a x ↔ Next l a x) := by
        intro a b' hm
        rw [next_cons]
        refine or_iff_right fun ⟨hca, _⟩ => hc ?_
        rw [hca]
        exact hw.mem_of_visited hm
      have hiff : (∃ a b', (a, b') ∈ (c, b) :: vs ∧ leaves b' ∧ Next (c :: l) a x) ↔
          ∃ a b', (a, b') ∈ vs ∧ leaves b' ∧ Next l a x := by
        constructor
        · intro ⟨a, b', hm, hl, hnx⟩
          rcases List.mem_cons.mp hm with heq | hm
          · cases heq
            exact absurd hl hb
          · exact ⟨a, b', hm, hl, (hnext a b' hm).mp hnx⟩
        · intro ⟨a, b', hm, hl, hnx⟩
          exact ⟨a, b', List.mem_cons_of_mem _ hm, hl, (hnext a b' hm).mpr hnx⟩
      rw [hiff, List.map_cons, List.mem_cons, not_or]
      rcases List.mem_cons.mp hx with rfl | hx
      · refine iff_of_false (fun hno => hno.1 rfl) ?_
        intro ⟨a, b', _, _, hnx⟩
        exact hc hnx.mem.2
      · have hne : x ≠ c := fun heq => hc (heq ▸ hx)
        rw [← ih hn hx]
        exact and_iff_right hne
  | @erase c b l vs rest hb hw ih =>
      obtain ⟨hc, hn⟩ := List.nodup_cons.mp hn
      have hcvs : ∀ b', (c, b') ∉ vs := fun b' hm => hc (List.mem_of_mem_tail (hw.mem_of_visited hm))
      rw [List.map_cons, List.mem_cons, not_or]
      rcases List.mem_cons.mp hx with rfl | hx
      · refine iff_of_false (fun hno => hno.1 rfl) ?_
        intro ⟨a, b', _, _, hnx⟩
        rcases next_cons.mp hnx with ⟨_, hhead⟩ | hnx
        · exact hc (List.mem_of_getElem? hhead)
        · exact hc hnx.mem.2
      have hne : x ≠ c := fun heq => hc (heq ▸ hx)
      rw [and_iff_right hne]
      cases l with
      | nil => exact absurd hx List.not_mem_nil
      | cons d l =>
      obtain ⟨hd, hn⟩ := List.nodup_cons.mp hn
      rcases List.mem_cons.mp hx with rfl | hx
      · -- the element that has moved up
        refine iff_of_true (fun hm => hd (hw.visited_sublist.subset hm)) ?_
        exact ⟨c, b, List.mem_cons_self, hb, 0, rfl, rfl⟩
      · refine (ih hn hx).trans ⟨?_, ?_⟩
        · intro ⟨a, b', hm, hl, i, ha, hi⟩
          exact ⟨a, b', List.mem_cons_of_mem _ hm, hl, i + 2, ha, hi⟩
        · intro ⟨a, b', hm, hl, hnx⟩
          have hxd : x ≠ d := fun heq => hd (heq ▸ hx)
          rcases next_cons.mp hnx with ⟨_, hhead⟩ | hnx
          · exact absurd (Option.some.inj hhead).symm hxd
          rcases List.mem_cons.mp hm with heq | hm
          · cases heq
            exact absurd hnx.mem.1 hc
          · rcases next_cons.mp hnx with ⟨rfl, _⟩ | hnx
            · exact absurd (hw.mem_of_visited hm) hd
            · exact ⟨a, b', hm, hl, hnx⟩

/-- **The loop comes to all that matter** iff none of them directly follows an erased one. -/
theorem Walk.all_visited_iff (h : Walk leaves l vs rest) (hn : l.Nodup) {P : α → Prop} :
    (∀ x ∈ l, P x → x ∈ vs.map Prod.fst) ↔
      ∀ a b x, (a, b) ∈ vs → leaves b → Next l a x → ¬ P x := by
  constructor
  · intro hall a b x hm hl hnx hP
    exact (h.skipped_iff hn hnx.mem.2).mpr ⟨a, b, hm, hl, hnx⟩ (hall x hnx.mem.2 hP)
  · intro hnone x hx hP
    by_contra hskip
    obtain ⟨a, b, hm, hl, hnx⟩ := (h.skipped_iff hn hx).mp hskip
    exact hnone a b x hm hl hnx hP

/-- What is left is what the loop did not erase. -/
theorem Walk.mem_rest_iff (h : Walk leaves l vs rest) (hn : l.Nodup) {x : α} (hx : x ∈ l) :
    x ∈ rest ↔ ¬ ∃ b, (x, b) ∈ vs ∧ leaves b := by
  induction h with
  | done => exact absurd hx List.not_mem_nil
  | @keep c b l vs rest hb hw ih =>
      obtain ⟨hc, hn⟩ := List.nodup_cons.mp hn
      -- the one that stays is not among those that leave
      have hrest : (∃ b', (x, b') ∈ (c, b) :: vs ∧ leaves b') ↔ ∃ b', (x, b') ∈ vs ∧ leaves b' := by
        constructor
        · intro ⟨b', hm, hl⟩
          rcases List.mem_cons.mp hm with heq | hm
          · cases heq
            exact absurd hl hb
          · exact ⟨b', hm, hl⟩
        · exact fun ⟨b', hm, hl⟩ => ⟨b', List.mem_cons_of_mem _ hm, hl⟩
      rw [hrest, List.mem_cons]
      rcases List.mem_cons.mp hx with rfl | hx
      · exact iff_of_true (Or.inl rfl) fun ⟨b', hm, _⟩ => hc (hw.mem_of_visited hm)
      · have hne : x ≠ c := fun heq => hc (heq ▸ hx)
        rw [or_iff_right hne]
        exact ih hn hx
  | @erase c b l vs rest hb hw ih =>
      obtain ⟨hc, hn⟩ := List.nodup_cons.mp hn
      -- the one behind the erased one is passed over, and stays
      have hsub : (l.take 1 ++ rest).Sublist l := by
        cases l with
        | nil => exact hw.rest_sublist
        | cons d l => exact hw.rest_sublist.cons_cons d
      rcases List.mem_cons.mp hx with rfl | hx
      · exact iff_of_false (fun hm => hc (hsub.subset hm)) (not_not.mpr ⟨b, List.mem_cons_self, hb⟩)
      have hne : x ≠ c := fun heq => hc (heq ▸ hx)
      have hcons : (∃ b', (x, b') ∈ (c, b) :: vs ∧ leaves b') ↔ ∃ b', (x, b') ∈ vs ∧ leaves b' := by
        refine exists_congr fun b' => and_congr_left fun _ => ?_
        rw [List.mem_cons]
        exact or_iff_right fun heq => hne (congrArg Prod.fst heq)
      rw [hcons]
      cases l with
      | nil => exact absurd hx List.not_mem_nil
      | cons d l =>
      obtain ⟨hd, hn⟩ := List.nodup_cons.mp hn
      rcases List.mem_cons.mp hx with rfl | hx
      · exact iff_of_true List.mem_cons_self fun ⟨b', hm, _⟩ => hd (hw.mem_of_visited hm)
      · have hxd : x ≠ d := fun heq => hd (heq ▸ hx)
        show x ∈ d :: rest ↔ _
        rw [List.mem_cons, or_iff_right hxd]
        exact ih hn hx

/-- A sublist is what is left of a list whose elements are told apart by `f`. -/
theorem eq_filter_of_sublist [DecidableEq β] {f : α → β} {l l' : List α}
    (h : l'.Sublist l) (hn : (l.map f).Nodup) : l' = l.filter fun a => f a ∈ l'.map f := by
  induction h with
  | slnil => rfl
  | @cons l₁ l₂ a hsub ih =>
      obtain ⟨ha, hn⟩ := List.nodup_cons.mp hn
      have hnot : f a ∉ l₁.map f := fun hm => ha ((hsub.map f).subset hm)
      rw [List.filter_cons_of_neg (by simpa using hnot)]
      exact ih hn
  | @cons_cons l₁ l₂ a hsub ih =>
      obtain ⟨ha, hn⟩ := List.nodup_cons.mp hn
      rw [List.filter_cons_of_pos (by simp)]
      refine congrArg (a :: ·) ((ih hn).trans (List.filter_congr fun b hb => ?_))
      have hne : f b ≠ f a := fun heq => ha (heq ▸ List.mem_map_of_mem hb)
      simp [hne]

/-! ## Places -/

/-- The places of what the loop erases, when it finds these from `place` on. -/
def erasedPlaces : Nat → List Bool → List Nat
  | _, [] => []
  | place, true :: bs => place :: erasedPlaces (place + 2) bs
  | place, false :: bs => erasedPlaces (place + 1) bs

/-- A loop that erases what is found `true`, with every element at its place. -/
theorem Walk.places {l rest : List α} {vs : List (α × Bool)} (h : Walk (· = true) l vs rest)
    (place : Nat) : ∃ vs' rest', Walk (· = true) (l.zipIdx place) vs' rest' ∧
      rest'.map Prod.fst = rest ∧ vs'.map (fun v => (v.1.1, v.2)) = vs ∧
      ∀ i, i ∈ erasedPlaces place (vs.map Prod.snd) ↔ ∃ a, ((a, i), true) ∈ vs' := by
  induction h generalizing place with
  | done => exact ⟨[], [], .done, rfl, rfl, fun i => by simp [erasedPlaces]⟩
  | @keep a b l vs rest hb _ ih =>
      obtain ⟨vs', rest', hw, hrest, hvs, hplaces⟩ := ih (place + 1)
      have hb : b = false := Bool.eq_false_iff.mpr hb
      subst hb
      refine ⟨((a, place), false) :: vs', (a, place) :: rest', .keep Bool.false_ne_true hw, ?_, ?_,
        fun i => (hplaces i).trans ?_⟩
      · rw [List.map_cons, hrest]
      · rw [List.map_cons, hvs]
      · refine exists_congr fun c => ?_
        rw [List.mem_cons]
        exact (or_iff_right fun heq => Bool.noConfusion (congrArg Prod.snd heq)).symm
  | @erase a b l vs rest hb _ ih =>
      obtain ⟨vs', rest', hw, hrest, hvs, hplaces⟩ := ih (place + 2)
      subst hb
      have htail : l.tail.zipIdx (place + 2) = (l.zipIdx (place + 1)).tail := by
        cases l with
        | nil => rfl
        | cons c l => rfl
      have htake : ((l.zipIdx (place + 1)).take 1).map Prod.fst = l.take 1 := by
        cases l with
        | nil => rfl
        | cons c l => rfl
      rw [htail] at hw
      refine ⟨((a, place), true) :: vs', _, .erase rfl hw, ?_, ?_, fun i => ?_⟩
      · rw [List.map_append, hrest, htake]
      · rw [List.map_cons, hvs]
      · rw [List.map_cons, erasedPlaces, List.mem_cons, hplaces i]
        constructor
        · rintro (rfl | ⟨c, hc⟩)
          · exact ⟨a, List.mem_cons_self⟩
          · exact ⟨c, List.mem_cons_of_mem _ hc⟩
        · intro ⟨c, hc⟩
          rcases List.mem_cons.mp hc with heq | hc
          · exact Or.inl (congrArg (·.1.2) heq)
          · exact Or.inr ⟨c, hc⟩

theorem zipIdx_nodup (l : List α) : l.zipIdx.Nodup := by
  refine List.Nodup.of_map Prod.snd ?_
  rw [List.zipIdx_map_snd]
  exact List.nodup_range'

theorem eq_of_place {l : List α} {x y : α × Nat} (hx : x ∈ l.zipIdx) (hy : y ∈ l.zipIdx)
    (h : x.2 = y.2) : x = y := by
  have hx := List.mem_zipIdx_iff_getElem?.mp hx
  have hy := List.mem_zipIdx_iff_getElem?.mp hy
  rw [h, hy] at hx
  exact Prod.ext (Option.some.inj hx).symm h

/-- Exactly the elements at the erased places are gone, and the others are in order. -/
theorem Walk.rest_eq {l rest : List α} {vs : List (α × Bool)} (h : Walk (· = true) l vs rest) :
    rest = (l.zipIdx.filter fun x => x.2 ∉ erasedPlaces 0 (vs.map Prod.snd)).map Prod.fst := by
  obtain ⟨vs', rest', hw, rfl, _, hplaces⟩ := h.places 0
  have hsnd : (l.zipIdx.map Prod.snd).Nodup := by
    rw [List.zipIdx_map_snd]
    exact List.nodup_range'
  refine congrArg (List.map Prod.fst) ?_
  refine (eq_filter_of_sublist hw.rest_sublist hsnd).trans (List.filter_congr fun x hx => ?_)
  rw [decide_eq_decide, hplaces]
  constructor
  · intro hm ⟨a, ha⟩
    obtain ⟨y, hy, hyx⟩ := List.mem_map.mp hm
    have hyx : y = x := eq_of_place (hw.rest_sublist.subset hy) hx hyx
    have hax : (a, x.2) = x := eq_of_place (hw.mem_of_visited ha) hx rfl
    subst hyx
    rw [hax] at ha
    exact (hw.mem_rest_iff (zipIdx_nodup l) hx).mp hy ⟨true, ha, rfl⟩
  · intro hno
    refine List.mem_map_of_mem ((hw.mem_rest_iff (zipIdx_nodup l) hx).mpr fun ⟨b, hb, htrue⟩ => ?_)
    subst htrue
    exact hno ⟨x.1, hb⟩

/-- What the loop erases, in order. -/
theorem Walk.erased_eq {l rest : List α} {vs : List (α × Bool)} (h : Walk (· = true) l vs rest) :
    (vs.filter Prod.snd).map Prod.fst =
      (l.zipIdx.filter fun x => x.2 ∈ erasedPlaces 0 (vs.map Prod.snd)).map Prod.fst := by
  obtain ⟨vs', rest', hw, _, hvs, hplaces⟩ := h.places 0
  have hsnd : (l.zipIdx.map Prod.snd).Nodup := by
    rw [List.zipIdx_map_snd]
    exact List.nodup_range'
  have hsub : ((vs'.filter Prod.snd).map Prod.fst).Sublist l.zipIdx :=
    (List.filter_sublist.map Prod.fst).trans hw.visited_sublist
  have hplaced : (vs'.filter Prod.snd).map Prod.fst =
      l.zipIdx.filter fun x => x.2 ∈ erasedPlaces 0 (vs.map Prod.snd) := by
    refine (eq_filter_of_sublist hsub hsnd).trans (List.filter_congr fun x hx => ?_)
    rw [decide_eq_decide, hplaces, List.map_map, List.mem_map]
    constructor
    · intro ⟨⟨y, b⟩, hy, hyx⟩
      obtain ⟨hy, hb⟩ := List.mem_filter.mp hy
      dsimp only at hb
      subst hb
      rw [← hyx]
      exact ⟨y.1, hy⟩
    · intro ⟨a, ha⟩
      exact ⟨_, List.mem_filter.mpr ⟨ha, rfl⟩, rfl⟩
  have hfst : (vs.filter Prod.snd).map Prod.fst =
      ((vs'.filter Prod.snd).map Prod.fst).map Prod.fst := by
    rw [← hvs, List.filter_map, List.map_map, List.map_map]
    rfl
  rw [hfst, hplaced]

/--
**Every element that is `P` is erased** iff none of them directly follows an erased one,
provided the loop finds `true` at those it comes to.
-/
theorem Walk.all_erased_iff {l rest : List α} {vs : List (α × Bool)}
    (h : Walk (· = true) l vs rest) {P : α → Prop} (hfound : ∀ a b, (a, b) ∈ vs → P a → b = true) :
    (∀ i a, l[i]? = some a → P a → i ∈ erasedPlaces 0 (vs.map Prod.snd)) ↔
      ∀ i ∈ erasedPlaces 0 (vs.map Prod.snd), ∀ a, l[i + 1]? = some a → ¬ P a := by
  obtain ⟨vs', rest', hw, _, hvs, hplaces⟩ := h.places 0
  have hiff := hw.all_visited_iff (zipIdx_nodup l) (P := fun x => P x.1)
  constructor
  · intro hall i hi a ha
    obtain ⟨c, hc⟩ := (hplaces i).mp hi
    have hci := List.mem_zipIdx_iff_getElem?.mp (hw.mem_of_visited hc)
    refine hiff.mp (fun x hx hP => ?_) (c, i) true (a, i + 1) hc rfl ⟨i, ?_, ?_⟩
    · obtain ⟨d, hd⟩ := (hplaces x.2).mp (hall x.2 x.1 (List.mem_zipIdx_iff_getElem?.mp hx) hP)
      have hdx : (d, x.2) = x := eq_of_place (hw.mem_of_visited hd) hx rfl
      rw [← hdx]
      exact List.mem_map_of_mem hd
    · rw [List.getElem?_zipIdx, hci, Nat.zero_add]
      rfl
    · rw [List.getElem?_zipIdx, ha, Nat.zero_add]
      rfl
  · intro hnone i a ha hP
    have hx : (a, i) ∈ l.zipIdx := List.mem_zipIdx_iff_getElem?.mpr ha
    refine (hplaces i).mpr ⟨a, ?_⟩
    have hvisited := hiff.mpr ?_ (a, i) hx hP
    · obtain ⟨⟨x, b⟩, hv, heq⟩ := List.mem_map.mp hvisited
      dsimp only at heq
      subst heq
      have hmem : (a, b) ∈ vs := by
        rw [← hvs]
        exact List.mem_map_of_mem (f := fun v : (α × Nat) × Bool => (v.1.1, v.2)) hv
      rw [← hfound a b hmem hP]
      exact hv
    · intro ⟨c, j⟩ b ⟨d, k⟩ hv hb ⟨n, hn, hn'⟩
      rw [List.getElem?_zipIdx, Nat.zero_add] at hn hn'
      obtain ⟨c', hc', heq⟩ := Option.map_eq_some_iff.mp hn
      obtain ⟨d', hd', heq'⟩ := Option.map_eq_some_iff.mp hn'
      cases heq
      cases heq'
      subst hb
      exact hnone j ((hplaces j).mpr ⟨c, hv⟩) d hd'

/-! ## The vector at the next index -/

theorem drop_eraseIdx (l : List α) (i : Nat) : (l.eraseIdx i).drop (i + 1) = l.drop (i + 2) := by
  apply List.ext_getElem?
  intro j
  rw [List.getElem?_drop, List.getElem?_drop, List.getElem?_eraseIdx_of_ge (by omega)]
  congr 1
  omega

theorem take_eraseIdx {l : List α} {i : Nat} (hi : i < l.length) :
    (l.eraseIdx i).take (i + 1) = l.take i ++ (l.drop (i + 1)).take 1 := by
  have hlen : (l.take i).length = i := by
    rw [List.length_take]
    omega
  rw [List.eraseIdx_eq_take_drop_succ, List.take_append, hlen, List.take_take,
    Nat.min_eq_right (Nat.le_succ i), Nat.add_sub_cancel_left]

end EraseLoop
