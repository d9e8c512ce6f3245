import Mathlib.Data.List.Induction
import ScoutComputer.Ui.Toast

/-!
# When `update` takes a toast that is not there

`update` returns early when the queue is empty and the current toast is done, and takes
the next toast when the current one is done. The two questions are asked by different
readings of the clock, so a toast that is the last one and ends in between gets past the
guard. An update is therefore one of three things (`Updates`), or that accident
(`update_none`); the order of the toasts and their deadlines are kept by each of the three,
and so by every run.

The deadline is a double. That a toast's length has elapsed is meant as the program has it,
by the sum that is stored; `elapsed_of_round` says how far that is from the exact sum.
-/

namespace ScoutComputer

namespace ToastAct

/-- What a call adds to the queue. -/
def added : ToastAct → Option Toast
  | .add toast => some toast
  | .update => none

end ToastAct

namespace ToastHandler

variable {round : Rat → Rat} {clock : Clock} {h h' : ToastHandler}

/-- The queue is empty, and the current toast ends between the next two readings. -/
def Straddles (clock : Clock) (h : ToastHandler) : Prop :=
  h.toastQueue = [] ∧ clock h.calls < h.currentToast.setTime ∧
    h.currentToast.setTime ≤ clock (h.calls + 1)

/-- What holds of the scheduler once `toasts` have been added. -/
structure Orderly (round : Rat → Rat) (toasts : List Toast) (h : ToastHandler) : Prop where
  queued : toasts = h.taken ++ h.toastQueue
  current : ∀ toast now, h.started = some (toast, now) → h.currentToast = toast.init round now
  /-- No toast was replaced before its length had elapsed. -/
  elapsed : ∀ g ∈ h.past, round (g.start + g.toast.length.seconds) ≤ g.stop

theorem orderly_start : Orderly round [] start where
  queued := rfl
  current _ _ h := absurd h (by simp [start])
  elapsed _ h := absurd h List.not_mem_nil

/-! ## One step -/

theorem isDone_iff {toast : Toast} {now : Rat} : toast.isDone now = true ↔ toast.setTime ≤ now :=
  decide_eq_true_iff

theorem not_isDone_iff {toast : Toast} {now : Rat} :
    ¬ toast.isDone now = true ↔ now < toast.setTime := by
  rw [isDone_iff, not_le]

/-- What an update makes of the handler. -/
inductive Updates (round : Rat → Rat) (clock : Clock) (h : ToastHandler) : ToastHandler → Prop where
  /-- There is nothing to show. -/
  | idle (n : Nat) : Updates round clock h { h with calls := n, drew := none }
  /-- The current toast is shown on. -/
  | stays (i n : Nat) (hlt : clock i < h.currentToast.setTime) :
      Updates round clock h { h with calls := n, drew := some h.currentToast }
  /-- The next toast is taken by the reading `now` and started by the reading `begun`. -/
  | takes (front : Toast) (rest : List Toast) (now begun : Rat) (n : Nat)
      (hq : h.toastQueue = front :: rest) (hdone : h.currentToast.setTime ≤ now) :
      Updates round clock h { h.history front now begun with
        toastQueue := rest, currentToast := front.init round begun, calls := n,
        drew := some (front.init round begun) }

theorem showNext_none : h.showNext round clock = none ↔
    h.toastQueue = [] ∧ h.currentToast.setTime ≤ clock h.calls := by
  unfold showNext
  by_cases hdone : h.currentToast.isDone (clock h.calls) = true
  · rw [if_pos hdone]
    cases hq : h.toastQueue with
    | nil => simpa using isDone_iff.mp hdone
    | cons front rest => simp
  · rw [if_neg hdone]
    have hlt := not_isDone_iff.mp hdone
    simp [hlt]

theorem showNext_some (hs : h.showNext round clock = some h') : Updates round clock h h' := by
  unfold showNext at hs
  split at hs
  · rename_i hdone
    cases hq : h.toastQueue with
    | nil =>
        rw [hq] at hs
        exact absurd hs (by simp)
    | cons front rest =>
        rw [hq] at hs
        rw [← Option.some.inj hs]
        exact .takes front rest _ _ _ hq (isDone_iff.mp hdone)
  · rename_i hdone
    rw [← Option.some.inj hs]
    exact .stays _ _ (not_isDone_iff.mp hdone)

/-- The calls made before do not count. -/
theorem Updates.of_calls {n : Nat} (hu : Updates round clock { h with calls := n } h') :
    Updates round clock h h' := by
  cases hu with
  | idle m => exact .idle m
  | stays i m hlt => exact .stays i m hlt
  | takes front rest now begun m hq hdone => exact .takes front rest now begun m hq hdone

/-- **The guard fails exactly when the last toast ends between the two readings.** -/
theorem update_none : h.update round clock = none ↔ h.Straddles clock := by
  unfold update Straddles
  by_cases hq : h.toastQueue.length = 0
  · have hnil : h.toastQueue = [] := List.length_eq_zero_iff.mp hq
    rw [if_pos hq]
    by_cases hdone : h.currentToast.isDone (clock h.calls) = true
    · rw [if_pos hdone]
      have hle := isDone_iff.mp hdone
      constructor
      · intro hnone
        exact absurd hnone (by simp)
      · intro ⟨_, hlt, _⟩
        exact absurd hle (not_le.mpr hlt)
    · rw [if_neg hdone, showNext_none]
      have hlt := not_isDone_iff.mp hdone
      simp [hnil, hlt]
  · rw [if_neg hq, showNext_none]
    have hne : h.toastQueue ≠ [] := fun hnil => hq (by rw [hnil]; rfl)
    simp [hne]

theorem update_some (hs : h.update round clock = some h') : Updates round clock h h' := by
  unfold update at hs
  split at hs
  · split at hs
    · rw [← Option.some.inj hs]
      exact .idle _
    · exact (showNext_some hs).of_calls
  · exact showNext_some hs

theorem taken_history (front : Toast) (stop begun : Rat) :
    (h.history front stop begun).taken = h.taken ++ [front] := by
  unfold taken history
  simp

theorem Orderly.updates {toasts : List Toast} (ho : Orderly round toasts h)
    (hu : Updates round clock h h') : Orderly round toasts h' := by
  cases hu with
  | idle n => exact ⟨ho.queued, ho.current, ho.elapsed⟩
  | stays i n hlt => exact ⟨ho.queued, ho.current, ho.elapsed⟩
  | takes front rest now begun n hq hdone =>
      refine ⟨?_, ?_, ?_⟩
      · show toasts = (h.history front now begun).taken ++ rest
        rw [taken_history, ho.queued, hq, List.append_assoc, List.singleton_append]
      · intro toast at' hstarted
        obtain ⟨rfl, rfl⟩ := Prod.mk.inj (Option.some.inj hstarted)
        rfl
      · intro g hg
        rcases List.mem_append.mp hg with hg | hg
        · exact ho.elapsed g hg
        · -- the toast that is replaced was done, by the time its own `init` set
          obtain ⟨⟨toast, started⟩, hs, rfl⟩ := List.mem_map.mp hg
          have hcur := ho.current toast started (Option.mem_toList.mp hs)
          rw [hcur] at hdone
          exact hdone

theorem Orderly.act {toasts : List Toast} {a : ToastAct} (ho : Orderly round toasts h)
    (hs : h.act round clock a = some h') : Orderly round (toasts ++ a.added.toList) h' := by
  cases a with
  | add toast =>
      cases hs
      refine ⟨?_, ho.current, ho.elapsed⟩
      show toasts ++ [toast] = h.taken ++ (h.toastQueue ++ [toast])
      rw [ho.queued, List.append_assoc]
  | update =>
      show Orderly round (toasts ++ []) h'
      rw [List.append_nil]
      exact ho.updates (update_some hs)

/-! ## Runs -/

theorem run_append (pre post : List ToastAct) : run round clock (pre ++ post) =
    (run round clock pre).bind fun h => post.foldlM (act round clock) h :=
  List.foldlM_append

theorem run_snoc (acts : List ToastAct) (a : ToastAct) : run round clock (acts ++ [a]) =
    (run round clock acts).bind fun h => h.act round clock a := by
  rw [run_append]
  refine Option.bind_congr fun h _ => ?_
  rw [List.foldlM_cons]
  exact bind_pure _

theorem orderly_run (acts : List ToastAct) (hrun : run round clock acts = some h) :
    Orderly round (acts.filterMap ToastAct.added) h := by
  induction acts using List.reverseRecOn generalizing h with
  | nil =>
      cases hrun
      exact orderly_start
  | append_singleton acts a ih =>
      rw [run_snoc] at hrun
      obtain ⟨h₁, h₁run, hs⟩ := Option.bind_eq_some_iff.mp hrun
      have hstep := (ih h₁run).act hs
      rw [List.filterMap_append]
      cases a with
      | add toast => exact hstep
      | update => exact hstep

/-- No update of the run finds the queue empty and the current toast ending as it looks. -/
def NoneStraddled (round : Rat → Rat) (clock : Clock) (acts : List ToastAct) : Prop :=
  ∀ pre post h, acts = pre ++ .update :: post → run round clock pre = some h →
    ¬ h.Straddles clock

/--
The run never takes the front of an empty queue, the toasts that have become current are
the first ones added, and each stays current until the time its `init` set: the sum of the
reading it was started by and its length.
-/
def Scheduled (round : Rat → Rat) (clock : Clock) (acts : List ToastAct) : Prop :=
  ∃ h, run round clock acts = some h ∧ h.taken <+: acts.filterMap ToastAct.added ∧
    (∀ toast now, h.started = some (toast, now) → h.currentToast = toast.init round now) ∧
    ∀ g ∈ h.past, round (g.start + g.toast.length.seconds) ≤ g.stop

theorem run_isSome (acts : List ToastAct) (hok : NoneStraddled round clock acts) :
    ∃ h, run round clock acts = some h := by
  induction acts using List.reverseRecOn with
  | nil => exact ⟨start, rfl⟩
  | append_singleton acts a ih =>
      have hpre : NoneStraddled round clock acts := by
        intro pre post h heq
        refine hok pre (post ++ [a]) h ?_
        rw [heq, List.append_assoc, List.cons_append]
      obtain ⟨h, hrun⟩ := ih hpre
      rw [run_snoc, hrun]
      cases a with
      | add toast => exact ⟨_, rfl⟩
      | update =>
          refine Option.ne_none_iff_exists'.mp ?_
          exact mt update_none.mp (hok acts [] h rfl hrun)

/-- **A run is scheduled** exactly when none of its updates is straddled. -/
theorem scheduled_iff (round : Rat → Rat) (clock : Clock) (acts : List ToastAct) :
    Scheduled round clock acts ↔ NoneStraddled round clock acts := by
  constructor
  · intro ⟨h, hrun, _⟩ pre post h₁ hacts hpre hbad
    have hnone : h₁.act round clock .update = none := update_none.mpr hbad
    rw [hacts, run_append, hpre, Option.bind_some, List.foldlM_cons, hnone] at hrun
    exact absurd hrun (by simp)
  · intro hok
    obtain ⟨h, hrun⟩ := run_isSome acts hok
    have ho := orderly_run acts hrun
    refine ⟨h, hrun, ?_, ho.current, ho.elapsed⟩
    rw [ho.queued]
    exact List.prefix_append _ _

/-- A sum that is rounded by at most `ε` shortens a toast by no more. -/
theorem elapsed_of_round {ε : Rat} {acts : List ToastAct} (hround : ∀ q, q - ε ≤ round q)
    (hrun : run round clock acts = some h) :
    ∀ g ∈ h.past, g.start + g.toast.length.seconds - ε ≤ g.stop :=
  fun g hg => (hround _).trans ((orderly_run acts hrun).elapsed g hg)

def jsonParsed : Toast := ⟨bytes "JSON parsed", .short, 0⟩

/-- One toast is added and shown; its second is over between two readings of an update. -/
def lastToast : List ToastAct := [.add jsonParsed, .update, .update]

/-- The clock stands still until then. -/
def secondLater : Clock := fun n => if n < 6 then 0 else 1

theorem secondLater_monotone : Monotone secondLater := by
  intro m n hmn
  unfold secondLater
  split
  · split
    · exact le_refl _
    · exact zero_le_one
  · rw [if_neg (by omega)]

/-- No way to round helps that keeps the number one. -/
theorem lastToast_taken : ¬ ∃ round : Rat → Rat, round 1 = 1 ∧
    ∀ clock acts, Monotone clock → Scheduled round clock acts := by
  intro ⟨round, hone, hall⟩
  obtain ⟨h, hrun, _⟩ := hall secondLater lastToast secondLater_monotone
  have hset : (jsonParsed.init round 0).setTime = 1 := by
    show round (0 + 1) = 1
    rw [zero_add, hone]
  have hshown : run round secondLater [.add jsonParsed, .update] =
      some ⟨[], jsonParsed.init round 0, 5, [], some (jsonParsed, 0),
        some (jsonParsed.init round 0)⟩ := rfl
  -- the queue is empty, and the toast is not done by the sixth reading but by the seventh
  have hnone : run round secondLater ([.add jsonParsed, .update] ++ [.update]) = none := by
    rw [run_snoc, hshown, Option.bind_some]
    exact update_none.mpr ⟨rfl, hset.symm ▸ zero_lt_one, hset.symm ▸ le_refl 1⟩
  rw [show lastToast = [.add jsonParsed, .update] ++ [.update] from rfl, hnone] at hrun
  exact absurd hrun (by simp)

end ToastHandler

end ScoutComputer
