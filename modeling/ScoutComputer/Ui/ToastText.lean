import Mathlib.Data.Rat.Floor
import Mathlib.Tactic.Linarith
import Mathlib.Tactic.Ring
import ScoutComputer.Lib.StepLoop
import ScoutComputer.Ui.ToastProof

/-!
# The size of the text of a toast

`getMaxTextSize` starts from a guess, makes the text larger as long as it is smaller than
its field and then smaller as long as it is larger. The size of a text grows in
proportion to the size of its font, and arithmetic on sizes is exact.
-/

namespace ScoutComputer

open StepLoop

/-- How large a text is at font size 1. -/
structure TextExtent where
  x : Rat
  y : Rat
  x_nonneg : 0 ≤ x
  y_pos : 0 < y

/-- The window. -/
structure Display where
  width : Nat
  height : Nat
  width_pos : 0 < width
  height_pos : 0 < height

namespace Toast

variable (e : TextExtent) (display : Display)

/-- The condition of the first loop, for a text of this font size. -/
def smaller (textSize : Rat) : Bool :=
  e.x * textSize < display.width / 6 && e.y * textSize < display.height / 10

/-- The condition of the second loop. -/
def larger (textSize : Rat) : Bool :=
  e.x * textSize > display.width / 6 || e.y * textSize > display.height / 10

/-- The size the search starts from. -/
def firstSize (length : Nat) : Rat := display.width / 5 / length * (7 / 5)

/--
`getMaxTextSize`, with a bound on the rounds of each loop. Without a message the first size
is infinite, and the second loop does not make it any smaller.
-/
def getMaxTextSize (message : List Byte) (fuel : Nat) : Option Rat :=
  if message.length = 0 then none
  else
    (whileDo (smaller e display) (· + 1 / 10) fuel (firstSize display message.length)).bind
      (whileDo (larger e display) (· - 1 / 10) fuel)

variable {e display}

/-- The text fits into its field. -/
def Fits (e : TextExtent) (display : Display) (textSize : Rat) : Prop :=
  e.x * textSize ≤ display.width / 6 ∧ e.y * textSize ≤ display.height / 10

theorem larger_eq_false_iff {s : Rat} : larger e display s = false ↔ Fits e display s := by
  simp [larger, Fits]

theorem Fits.mono {s t : Rat} (h : Fits e display t) (hst : s ≤ t) : Fits e display s :=
  ⟨(mul_le_mul_of_nonneg_left hst e.x_nonneg).trans h.1,
    (mul_le_mul_of_nonneg_left hst e.y_pos.le).trans h.2⟩

/-- A text that is not smaller than its field does not fit a step later. -/
theorem not_fits_of_smaller {s : Rat} (h : smaller e display s = false) :
    ¬ Fits e display (s + 1 / 10) := by
  have hwidth : (0 : Rat) < display.width := Nat.cast_pos.mpr display.width_pos
  intro ⟨hx, hy⟩
  rw [mul_add] at hx hy
  simp only [smaller, Bool.and_eq_false_iff, decide_eq_false_iff_not, not_lt] at h
  have hpos := e.y_pos
  have hnonneg := e.x_nonneg
  rcases h with h | h
  · -- a text without width is smaller than its field at any size
    have hzero : e.x = 0 := le_antisymm (by linarith) hnonneg
    rw [hzero, zero_mul] at h
    linarith
  · linarith

theorem pos_of_larger {s : Rat} (h : larger e display s = true) : 0 < s := by
  by_contra hs
  have hs : s ≤ 0 := not_lt.mp hs
  have hfits : Fits e display s :=
    ⟨(mul_nonpos_of_nonneg_of_nonpos e.x_nonneg hs).trans (by positivity),
      (mul_nonpos_of_nonneg_of_nonpos e.y_pos.le hs).trans (by positivity)⟩
  rw [larger_eq_false_iff.mpr hfits] at h
  exact Bool.false_ne_true h

theorem lt_of_smaller {s : Rat} (h : smaller e display s = true) :
    0 < display.height / 10 / e.y - s := by
  simp only [smaller, Bool.and_eq_true, decide_eq_true_eq] at h
  have := (lt_div_iff₀ e.y_pos).mpr (mul_comm e.y s ▸ h.2)
  linarith

/-- A step lowers how many steps there are to take. -/
theorem ceil_step {q : Rat} (h : 0 < q) : ⌈(q - 1 / 10) * 10⌉.toNat < ⌈q * 10⌉.toNat := by
  have hpos : 0 < ⌈q * 10⌉ := Int.ceil_pos.mpr (by linarith)
  have hstep : (q - 1 / 10) * 10 = q * 10 - 1 := by ring
  rw [hstep, Int.ceil_sub_one]
  omega

/-- A number of steps from the first size. -/
def OnGrid (first s : Rat) : Prop := ∃ k : Int, s = first + k / 10

/-- The search ends, with a size that fits and is the last one to do so. -/
theorem exists_size (e : TextExtent) (display : Display) (first : Rat) :
    ∃ n s, (whileDo (smaller e display) (· + 1 / 10) n first).bind
        (whileDo (larger e display) (· - 1 / 10) n) = some s ∧
      OnGrid first s ∧ Fits e display s ∧ ¬ Fits e display (s + 1 / 10) := by
  obtain ⟨n, s, hgrow, ⟨k, hk⟩, hs⟩ := exists_whileDo (c := smaller e display)
    (f := (· + 1 / 10)) (J := OnGrid first)
    (fun s => ⌈(display.height / 10 / e.y - s) * 10⌉.toNat) (by
      intro s ⟨k, hk⟩ hs
      refine ⟨⟨k + 1, ?_⟩, ?_⟩
      · rw [hk]
        push_cast
        ring
      · have hstep := ceil_step (lt_of_smaller hs)
        rwa [sub_sub] at hstep)
    (s := first) ⟨0, by simp⟩
  obtain ⟨m, t, hshrink, ⟨⟨j, hj⟩, hnext⟩, ht⟩ := exists_whileDo (c := larger e display)
    (f := (· - 1 / 10)) (J := fun s => OnGrid first s ∧ ¬ Fits e display (s + 1 / 10))
    (fun s => ⌈s * 10⌉.toNat) (by
      intro s ⟨⟨k, hk⟩, _⟩ hs
      refine ⟨⟨⟨k - 1, ?_⟩, ?_⟩, ceil_step (pos_of_larger hs)⟩
      · rw [hk]
        push_cast
        ring
      · rw [sub_add_cancel, ← larger_eq_false_iff, hs]
        exact Bool.noConfusion)
    (s := s) ⟨⟨k, hk⟩, not_fits_of_smaller hs⟩
  refine ⟨n + m, t, ?_, ⟨j, hj⟩, larger_eq_false_iff.mp ht, hnext⟩
  rw [whileDo_mono hgrow (by omega), Option.bind_some]
  exact whileDo_mono hshrink (by omega)

/-- What `getMaxTextSize` returns in the end: the largest size that fits. -/
def Largest (e : TextExtent) (display : Display) (message : List Byte) (s : Rat) : Prop :=
  (∃ n, ∀ fuel, n ≤ fuel → getMaxTextSize e display message fuel = some s) ∧
    Fits e display s ∧ ∀ t, OnGrid (firstSize display message.length) t → Fits e display t → t ≤ s

theorem getMaxTextSize_mono {message : List Byte} {m n : Nat} {s : Rat}
    (h : getMaxTextSize e display message n = some s) (hnm : n ≤ m) :
    getMaxTextSize e display message m = some s := by
  unfold getMaxTextSize at h ⊢
  split
  · rename_i hm
    rw [if_pos hm] at h
    exact absurd h (by simp)
  · rename_i hm
    rw [if_neg hm] at h
    obtain ⟨t, hgrow, hshrink⟩ := Option.bind_eq_some_iff.mp h
    rw [whileDo_mono hgrow hnm, Option.bind_some]
    exact whileDo_mono hshrink hnm

/-- **A message has a size.** -/
theorem exists_largest (e : TextExtent) (display : Display) {message : List Byte}
    (hne : message ≠ []) : ∃ s, Largest e display message s := by
  obtain ⟨n, s, hrun, ⟨k, hk⟩, hfits, hnext⟩ :=
    exists_size e display (firstSize display message.length)
  have hsize : getMaxTextSize e display message n = some s := by
    unfold getMaxTextSize
    rw [if_neg fun hm => hne (List.length_eq_zero_iff.mp hm)]
    exact hrun
  refine ⟨s, ⟨n, fun fuel hfuel => getMaxTextSize_mono hsize hfuel⟩, hfits, ?_⟩
  intro t ⟨j, hj⟩ ht
  by_contra hlt
  have hkj : k + 1 ≤ j := by
    have hlt : s < t := not_le.mp hlt
    have : (k : Rat) < j := by linarith
    exact_mod_cast this
  have hcast : ((k + 1 : Int) : Rat) ≤ j := Int.cast_le.mpr hkj
  push_cast at hcast
  exact hnext (ht.mono (by linarith))

end Toast

/-! ## The toasts that are drawn -/

namespace ToastHandler

variable {round : Rat → Rat} {clock : Clock} {h h' : ToastHandler} {toast : Toast}

/-- Nothing without a message is waiting, has been started or was drawn. -/
structure Worded (h : ToastHandler) : Prop where
  queued : ∀ toast ∈ h.toastQueue, toast.message ≠ []
  current : h.currentToast = noToast ∨ h.currentToast.message ≠ []
  drew : ∀ toast, h.drew = some toast → toast.message ≠ []

/-- The toast the handler begins with is done at once, so it is never shown on. -/
theorem Worded.updates (hclock : ∀ n, 0 ≤ clock n) (hw : Worded h)
    (hu : Updates round clock h h') : Worded h' := by
  cases hu with
  | idle n => exact ⟨hw.queued, hw.current, fun toast hd => absurd hd (by simp)⟩
  | stays i n hlt =>
      refine ⟨hw.queued, hw.current, ?_⟩
      intro toast hd
      rw [← Option.some.inj hd]
      refine hw.current.resolve_left ?_
      intro hno
      rw [hno] at hlt
      exact absurd (hclock i) (not_le.mpr hlt)
  | takes front rest now begun n hq hdone =>
      have hfront : front.message ≠ [] := hw.queued front (hq ▸ List.mem_cons_self)
      refine ⟨fun toast hm => hw.queued toast (hq ▸ List.mem_cons_of_mem front hm), .inr hfront, ?_⟩
      intro toast hd
      rw [← Option.some.inj hd]
      exact hfront

theorem worded_run (acts : List ToastAct) (hclock : ∀ n, 0 ≤ clock n)
    (hadd : ∀ toast, .add toast ∈ acts → toast.message ≠ [])
    (hrun : run round clock acts = some h) : Worded h := by
  induction acts using List.reverseRecOn generalizing h with
  | nil =>
      cases hrun
      exact ⟨fun _ hm => absurd hm List.not_mem_nil, .inl rfl, fun _ hd => absurd hd (by simp [start])⟩
  | append_singleton acts a ih =>
      rw [run_snoc] at hrun
      obtain ⟨h₁, h₁run, hs⟩ := Option.bind_eq_some_iff.mp hrun
      have hw := ih (fun toast hm => hadd toast (List.mem_append_left _ hm)) h₁run
      cases a with
      | add toast =>
          cases hs
          refine ⟨?_, hw.current, hw.drew⟩
          intro t ht
          rcases List.mem_append.mp ht with ht | ht
          · exact hw.queued t ht
          · exact List.mem_singleton.mp ht ▸ hadd toast (by simp)
      | update => exact hw.updates hclock (update_some hs)

/--
**Every toast that is drawn can be drawn.** As long as no message is empty and the clock
starts at zero, in every run the search for the size of its text ends, with the largest size
in steps of a tenth that fits into its field.
-/
theorem drawn_sized (round : Rat → Rat) (clock : Clock) (acts : List ToastAct)
    (hclock : ∀ n, 0 ≤ clock n) (hadd : ∀ toast, .add toast ∈ acts → toast.message ≠ [])
    (hrun : run round clock acts = some h) (hd : h.drew = some toast) (e : TextExtent)
    (display : Display) : ∃ s, Toast.Largest e display toast.message s :=
  Toast.exists_largest e display ((worded_run acts hclock hadd hrun).drew toast hd)

/-- The first message is drawn in two frames, and in the third the second takes its place. -/
theorem drawn_sized_parsed :
    let acts : List ToastAct := [.add ⟨bytes "JSON parsed", .normal, 0⟩,
      .add ⟨bytes "No key", .long, 0⟩, .update, .update, .update]
    ∃ h toast, run id (fun n => if n < 6 then 0 else 2) acts = some h ∧ h.drew = some toast ∧
      toast.message = bytes "No key" ∧
      ∃ s, Toast.Largest ⟨5, 1, by decide, by decide⟩ ⟨1280, 720, by decide, by decide⟩
        toast.message s := by
  intro acts
  have hrun : run id (fun n => if n < 6 then 0 else 2) acts =
      some ⟨[], ⟨bytes "No key", .long, 6⟩, 12, [⟨⟨bytes "JSON parsed", .normal, 0⟩, 0, 2⟩],
        some (⟨bytes "No key", .long, 0⟩, 2), some ⟨bytes "No key", .long, 6⟩⟩ := by
    decide +kernel
  refine ⟨_, _, hrun, rfl, rfl, drawn_sized id _ acts ?_ ?_ hrun rfl _ _⟩
  · intro n
    split
    · exact le_refl 0
    · exact zero_le_two
  · intro toast hm
    have hmessage : toast.message ∈ [bytes "JSON parsed", bytes "No key"] := by
      rcases List.mem_cons.mp hm with hm | hm
      · cases hm
        exact List.mem_cons_self
      · rcases List.mem_cons.mp hm with hm | hm
        · cases hm
          exact List.mem_cons_of_mem _ List.mem_cons_self
        · exact absurd hm (by simp)
    intro hempty
    rw [hempty] at hmessage
    exact absurd hmessage (by decide +kernel)

end ToastHandler

end ScoutComputer
