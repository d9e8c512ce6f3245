import Mathlib.Data.List.Sublists
import ScoutComputer.Lib.Latch
import ScoutComputer.Ui.Main

/-!
# What the window does with the mouse

A button that is no tab is a latch on the frames that poll it. The tabs are enabled and
disabled to fit the scene, so that no scene is one the user cannot leave.
-/

namespace ScoutComputer.Window

open Latch

variable {w w' : Window} {i : Input} {c d : Control} {l : List Control}

/-! ## What polling leaves alone -/

@[simp] theorem setButton_self (b : Button) : (w.setButton c b).button c = b := by
  unfold setButton
  exact Function.update_self c b w.button

@[simp] theorem setButton_ne {b : Button} (h : d ≠ c) :
    (w.setButton c b).button d = w.button d := by
  unfold setButton
  exact Function.update_of_ne h b w.button

@[simp] theorem poll_box : (w.poll i c).2.box = w.box := rfl

theorem poll_button_ne (h : d ≠ c) : (w.poll i c).2.button d = w.button d := setButton_ne h

/-- An enabled button is a latch. -/
theorem poll_enabled (h : (w.button c).disabled = false) :
    (w.poll i c).1 = (i.clickState c && !(w.button c).lastClickState) ∧
      (w.poll i c).2.button c = ⟨i.clickState c, false⟩ := by
  unfold poll Button.isPressed
  rw [h]
  exact ⟨rfl, setButton_self _⟩

theorem poll_disabled (h : (w.button c).disabled = true) : w.poll i c = (false, w) := by
  unfold poll Button.isPressed setButton
  rw [h]
  exact Prod.ext rfl (congrArg (fun b => { w with button := b })
    (Function.update_eq_self c w.button))

theorem poll_flag : ((w.poll i c).2.button d).disabled = (w.button d).disabled := by
  by_cases hd : d = c
  · subst hd
    cases h : (w.button d).disabled with
    | false => rw [(poll_enabled h).2]
    | true => rw [poll_disabled h, h]
  · rw [poll_button_ne hd]

/-- A button that is not clicked is not pressed. -/
theorem poll_quiet (h : i.clickState c = false) : ¬ (w.poll i c).1 = true := by
  cases hd : (w.button c).disabled with
  | false => simp [(poll_enabled hd).1, h]
  | true => simp [poll_disabled hd]

@[simp] theorem navigate_box : (w.navigate c).box = w.box := by
  cases c <;> rfl

theorem navigate_button (h : d ∉ tabs) : (w.navigate c).button d = w.button d := by
  have hm : d ≠ .mainTab := fun hd => h (by simp [tabs, hd])
  have hb : d ≠ .databaseTab := fun hd => h (by simp [tabs, hd])
  have ht : d ≠ .bluetoothTab := fun hd => h (by simp [tabs, hd])
  cases c <;> simp [navigate, enable, disable, hm, hb, ht]

theorem tasks_congr (h : w.box = w'.box) : w.tasks c = w'.tasks c := by
  cases c <;> simp [tasks, h]

/-! ## A button as a latch -/

/-- Whether a button was pressed. -/
def isPress (c : Control) : Event → Bool
  | .pressed control _ => control = c
  | _ => false

/-- Whether a button was pressed in a frame. -/
def pressedIn (c : Control) (events : List Event) : Bool := events.any (isPress c)

@[simp] theorem pressedIn_nil : pressedIn c [] = false := rfl

@[simp] theorem pressedIn_cons (e : Event) (events : List Event) :
    pressedIn c (e :: events) = (isPress c e || pressedIn c events) := rfl

@[simp] theorem pressedIn_append (es fs : List Event) :
    pressedIn c (es ++ fs) = (pressedIn c es || pressedIn c fs) := List.any_append

theorem pollFirst_box : (pollFirst i l w).1.box = w.box := by
  induction l generalizing w with
  | nil => rfl
  | cons d l ih =>
      rw [pollFirst]
      split
      · exact navigate_box
      · exact ih

theorem pollFirst_other (hc : c ∉ tabs) (h : c ∉ l) :
    (pollFirst i l w).1.button c = w.button c ∧
      pressedIn c (pollFirst i l w).2 = false := by
  induction l generalizing w with
  | nil => exact ⟨rfl, rfl⟩
  | cons d l ih =>
      obtain ⟨hd, hcs⟩ := List.ne_and_not_mem_of_not_mem_cons h
      rw [pollFirst]
      split
      · refine ⟨?_, ?_⟩
        · rw [navigate_button hc, poll_button_ne hd]
        · simpa [isPress] using hd.symm
      · obtain ⟨hb, hp⟩ := ih (w := (w.poll i d).2) hcs
        exact ⟨hb.trans (poll_button_ne hd), hp⟩

theorem pollAll_box : (pollAll i l w).1.box = w.box := by
  induction l generalizing w with
  | nil => rfl
  | cons d l ih =>
      rw [pollAll]
      dsimp only
      split
      · exact ih.trans navigate_box
      · exact ih

/-- A button that is not in the list is not polled. -/
theorem pollAll_other (hc : c ∉ tabs) (h : c ∉ l) :
    (pollAll i l w).1.button c = w.button c ∧
      pressedIn c (pollAll i l w).2 = false := by
  induction l generalizing w with
  | nil => exact ⟨rfl, rfl⟩
  | cons d l ih =>
      obtain ⟨hd, hcs⟩ := List.ne_and_not_mem_of_not_mem_cons h
      rw [pollAll]
      dsimp only
      split
      · obtain ⟨hb, hp⟩ := ih (w := (w.poll i d).2.navigate d) hcs
        refine ⟨?_, ?_⟩
        · rw [hb, navigate_button hc, poll_button_ne hd]
        · simpa [isPress, hp] using hd.symm
      · obtain ⟨hb, hp⟩ := ih (w := (w.poll i d).2) hcs
        exact ⟨hb.trans (poll_button_ne hd), hp⟩

/-- A button that is in the list is polled once. -/
theorem pollAll_latch (hc : c ∉ tabs) (hnd : l.Nodup) (h : c ∈ l)
    (hon : (w.button c).disabled = false) :
    (pollAll i l w).1.button c = ⟨i.clickState c, false⟩ ∧
      pressedIn c (pollAll i l w).2 =
        (i.clickState c && !(w.button c).lastClickState) := by
  induction l generalizing w with
  | nil => exact absurd h List.not_mem_nil
  | cons d l ih =>
      obtain ⟨hd, hnd⟩ := List.nodup_cons.mp hnd
      rw [pollAll]
      dsimp only
      by_cases hcd : c = d
      · subst hcd
        obtain ⟨hval, hbut⟩ := poll_enabled (i := i) hon
        split
        · rename_i hr
          obtain ⟨hb, hp⟩ := pollAll_other (w := (w.poll i c).2.navigate c) (i := i)
            hc hd
          refine ⟨?_, ?_⟩
          · rw [hb, navigate_button hc, hbut]
          · rw [← hval, hr]
            simp [isPress]
        · rename_i hr
          obtain ⟨hb, hp⟩ := pollAll_other (i := i) (w := (w.poll i c).2) hc hd
          refine ⟨hb.trans hbut, ?_⟩
          rw [hp, ← hval]
          exact (Bool.not_eq_true _ ▸ hr : (w.poll i c).1 = false).symm
      · have hmem : c ∈ l := (List.mem_cons.mp h).resolve_left hcd
        have hkeep := poll_button_ne (w := w) (i := i) hcd
        split
        · have hnav : ((w.poll i d).2.navigate d).button c = w.button c := by
            rw [navigate_button hc, hkeep]
          obtain ⟨hb, hp⟩ := ih (w := (w.poll i d).2.navigate d) hnd hmem (by rw [hnav, hon])
          refine ⟨hb, ?_⟩
          rw [pressedIn_cons, hp, hnav]
          have : isPress c (.pressed d ((w.poll i d).2.tasks d)) = false := by
            simpa [isPress] using Ne.symm hcd
          rw [this, Bool.false_or]
        · obtain ⟨hb, hp⟩ := ih (w := (w.poll i d).2) hnd hmem (by rw [hkeep, hon])
          exact ⟨hb, by rw [hp, hkeep]⟩

@[simp] theorem type_button (bs : List Box) : (type i bs w).button = w.button := by
  induction bs generalizing w with
  | nil => rfl
  | cons b bs ih => exact ih

@[simp] theorem type_scene (bs : List Box) : (type i bs w).currentScene = w.currentScene := by
  induction bs generalizing w with
  | nil => rfl
  | cons b bs ih => exact ih

theorem enter_button (hc : c ∉ tabs) (s : Scene) : (w.enter s).1.button c = w.button c := by
  have hm : c ≠ .mainTab := fun hd => hc (by simp [tabs, hd])
  have hb : c ≠ .databaseTab := fun hd => hc (by simp [tabs, hd])
  have ht : c ≠ .bluetoothTab := fun hd => hc (by simp [tabs, hd])
  cases s <;> simp [enter, disable, hm, hb, ht]

@[simp] theorem enter_box (s : Scene) : (w.enter s).1.box = w.box := by
  cases s <;> rfl

theorem pressedIn_enter (s : Scene) : pressedIn c (w.enter s).2 = false := by
  cases s <;> rfl

theorem nodup_controls (s : Scene) : (controls s).Nodup := by
  cases s <;> simp [controls]

/-- The scene a frame shows. -/
def shown (w : Window) (i : Input) : Scene := (pollFirst i tabs w).1.currentScene

/-- What a frame lets a button see of the mouse. -/
def sample (c : Control) (w : Window) (i : Input) : Option Bool :=
  if c ∈ controls (w.shown i) then some (i.clickState c) else none

/-- **In a frame**: a button that is no tab is a latch. -/
theorem frame_latch (hc : c ∉ tabs) (hon : (w.button c).disabled = false) :
    (w.frame i).1.button c =
        ⟨(sample c w i).getD (w.button c).lastClickState, false⟩ ∧
      ∀ rest, pressedIn c (w.frame i).2 ::
          rises ((w.frame i).1.button c).lastClickState rest =
        rises (w.button c).lastClickState (sample c w i :: rest) := by
  obtain ⟨hb, hp⟩ := pollFirst_other (i := i) (w := w) hc hc
  have hstart : ((pollFirst i tabs w).1.enter (w.shown i)).1.button c = w.button c := by
    rw [enter_button hc, hb]
  have hpress : pressedIn c (w.frame i).2 = pressedIn c (pollAll i
      (controls (w.shown i))
      ((pollFirst i tabs w).1.enter (w.shown i)).1).2 := by
    simp [frame, play, hp, pressedIn_enter, isPress, shown]
  have hbut : (w.frame i).1.button c = (pollAll i (controls (w.shown i))
      ((pollFirst i tabs w).1.enter (w.shown i)).1).1.button c := by
    simp [frame, play, shown]
  rw [hpress, hbut]
  unfold sample
  split
  · rename_i hmem
    obtain ⟨hb', hp'⟩ := pollAll_latch (i := i) hc (nodup_controls _) hmem
      (by rw [hstart, hon])
    rw [hb', hp', hstart]
    refine ⟨rfl, ?_⟩
    intro rest
    rw [rises_some]
  · rename_i hmem
    obtain ⟨hb', hp'⟩ := pollAll_other (i := i)
      (w := ((pollFirst i tabs w).1.enter (w.shown i)).1) hc hmem
    rw [hb', hp', hstart]
    refine ⟨?_, ?_⟩
    · rw [Option.getD_none, ← hon]
    · intro rest
      rw [rises_none]

/-- What the frames of a run let a button see of the mouse. -/
def samples (c : Control) : Window → List Input → List (Option Bool)
  | _, [] => []
  | w, i :: inputs => sample c w i :: samples c (w.frame i).1 inputs

/-- **Over a run**: the presses of a button are the rising edges of its samples. -/
theorem presses_eq_rises (hc : c ∉ tabs) (hon : (w.button c).disabled = false)
    (inputs : List Input) :
    (run w inputs).2.map (pressedIn c) =
      rises (w.button c).lastClickState (samples c w inputs) := by
  induction inputs generalizing w with
  | nil => rfl
  | cons i inputs ih =>
      obtain ⟨hbut, hpress⟩ := frame_latch (i := i) hc hon
      have hrest := ih (w := (w.frame i).1) (by rw [hbut])
      rw [samples, ← hpress, ← hrest]
      rfl

/-! ## The tabs -/

/-- The tabs a scene disables. -/
def disabledTabs : Scene → List Control
  | .scanning => [.mainTab]
  | .database => [.databaseTab]
  | .bluetooth => [.bluetoothTab]
  | .pong => tabs

/-- Exactly the buttons of a list are disabled. -/
def Disables (w : Window) (l : List Control) : Prop := ∀ c, (w.button c).disabled = decide (c ∈ l)

/--
The tabs fit the scene. The game disables its tabs in the first frame that shows it, which
is not the one that turns to it.
-/
def Agrees (w : Window) : Prop :=
  w.Disables (disabledTabs w.currentScene) ∨
    w.currentScene = .pong ∧ w.Disables (disabledTabs .bluetooth)

/-- The same scene, and the same buttons are disabled. -/
structure Alike (w w' : Window) : Prop where
  scene : w'.currentScene = w.currentScene
  flag : ∀ c, (w'.button c).disabled = (w.button c).disabled

theorem Alike.refl (w : Window) : Alike w w := ⟨rfl, fun _ => rfl⟩

theorem Alike.trans {w₁ w₂ w₃ : Window} (h : Alike w₁ w₂) (h' : Alike w₂ w₃) : Alike w₁ w₃ :=
  ⟨h'.scene.trans h.scene, fun c => (h'.flag c).trans (h.flag c)⟩

theorem alike_poll (w : Window) (i : Input) (c : Control) : Alike w (w.poll i c).2 :=
  ⟨rfl, fun _ => poll_flag⟩

theorem alike_type (w : Window) (i : Input) (bs : List Box) : Alike w (type i bs w) :=
  ⟨type_scene bs, fun c => by rw [type_button]⟩

theorem Alike.disables {l : List Control} (h : Alike w w') (hd : w.Disables l) : w'.Disables l :=
  fun c => (h.flag c).trans (hd c)

theorem Alike.agrees (h : Alike w w') (ha : Agrees w) : Agrees w' := by
  unfold Agrees
  rw [h.scene]
  exact ha.imp h.disables fun ⟨hs, hd⟩ => ⟨hs, h.disables hd⟩

theorem setButton_flag (b : Button) :
    ((w.setButton c b).button d).disabled =
      if d = c then b.disabled else (w.button d).disabled := by
  by_cases hd : d = c
  · subst hd
    rw [setButton_self, if_pos rfl]
  · rw [setButton_ne hd, if_neg hd]

@[simp] theorem enable_scene : (w.enable c).currentScene = w.currentScene := rfl

@[simp] theorem disable_scene : (w.disable c).currentScene = w.currentScene := rfl

@[simp] theorem enable_flag :
    ((w.enable c).button d).disabled = if d = c then false else (w.button d).disabled :=
  setButton_flag _

@[simp] theorem disable_flag :
    ((w.disable c).button d).disabled = if d = c then true else (w.button d).disabled :=
  setButton_flag _

theorem Alike.navigate (h : Alike w w') (c : Control) : Alike (w.navigate c) (w'.navigate c) := by
  have hflag := h.flag
  cases c with
  | pong => exact ⟨rfl, hflag⟩
  | mainTab => exact ⟨rfl, fun d => by simp [Window.navigate, hflag]⟩
  | databaseTab => exact ⟨rfl, fun d => by simp [Window.navigate, hflag]⟩
  | bluetoothTab => exact ⟨rfl, fun d => by simp [Window.navigate, hflag]⟩
  | pongback => exact ⟨rfl, fun d => by simp [Window.navigate, hflag]⟩
  | _ => exact h

/-- What the tabs do is at most one navigation. -/
theorem pollFirst_alike : Alike w (pollFirst i l w).1 ∨
    ∃ c ∈ l, Alike (w.navigate c) (pollFirst i l w).1 := by
  induction l generalizing w with
  | nil => exact .inl (Alike.refl w)
  | cons c l ih =>
      have hpoll := alike_poll w i c
      rw [pollFirst]
      split
      · exact .inr ⟨c, List.mem_cons_self, hpoll.navigate c⟩
      · rcases ih (w := (w.poll i c).2) with h | ⟨d, hd, h⟩
        · exact .inl (hpoll.trans h)
        · exact .inr ⟨d, List.mem_cons_of_mem c hd, (hpoll.navigate d).trans h⟩

theorem Alike.navigates (ds : List Control) (h : Alike w w') :
    Alike (ds.foldl Window.navigate w) (ds.foldl Window.navigate w') := by
  induction ds generalizing w w' with
  | nil => exact h
  | cons d ds ih => exact ih (h.navigate d)

/-- What the buttons of a scene do is to navigate by some of them, in order. -/
theorem pollAll_alike : ∃ ds : List Control,
    ds.Sublist l ∧ Alike (ds.foldl Window.navigate w) (pollAll i l w).1 := by
  induction l generalizing w with
  | nil => exact ⟨[], .slnil, Alike.refl w⟩
  | cons c l ih =>
      have hpoll := alike_poll w i c
      rw [pollAll]
      dsimp only
      split
      · obtain ⟨ds, hds, h⟩ := ih (w := (w.poll i c).2.navigate c)
        exact ⟨c :: ds, hds.cons_cons c, ((hpoll.navigate c).navigates ds).trans h⟩
      · obtain ⟨ds, hds, h⟩ := ih (w := (w.poll i c).2)
        exact ⟨ds, hds.cons c, (hpoll.navigates ds).trans h⟩

theorem Agrees.enabled (h : Agrees w) (hc : c ∉ tabs) : (w.button c).disabled = false := by
  have hout : ∀ s, c ∉ disabledTabs s := by
    intro s hs
    cases s <;> simp_all [disabledTabs, tabs]
  rcases h with h | ⟨_, h⟩
  · simpa [hout] using h c
  · simpa [hout] using h c

/-- A button that leads to a scene by way of the tabs. -/
theorem disables_navigate (hoff : ∀ d ∉ tabs, (w.button d).disabled = false)
    (hc : c ∈ .pongback :: tabs) :
    (w.navigate c).Disables (disabledTabs (w.navigate c).currentScene) := by
  have hcases : c = .pongback ∨ c = .mainTab ∨ c = .databaseTab ∨ c = .bluetoothTab := by
    simpa [tabs] using hc
  rcases hcases with rfl | rfl | rfl | rfl
  all_goals
    intro d
    cases d <;> simp [Window.navigate, disabledTabs, hoff, tabs]

theorem Agrees.pollFirst (h : Agrees w) : Agrees (pollFirst i tabs w).1 := by
  rcases pollFirst_alike (w := w) (i := i) (l := tabs) with ha | ⟨c, hc, ha⟩
  · exact ha.agrees h
  · exact ha.agrees (.inl (disables_navigate (fun _ => h.enabled) (List.mem_cons_of_mem _ hc)))

/-- The scene that is played has the tabs it wants. -/
theorem Agrees.enter (h : Agrees w) :
    (w.enter w.currentScene).1.currentScene = w.currentScene ∧
      (w.enter w.currentScene).1.Disables (disabledTabs w.currentScene) := by
  by_cases hs : w.currentScene = .pong
  · rw [hs]
    refine ⟨hs, ?_⟩
    intro d
    have hoff : d ∉ tabs → (w.button d).disabled = false := h.enabled
    cases d <;> simp [Window.enter, disabledTabs, tabs] at hoff ⊢ <;> exact hoff
  · have hsame : (w.enter w.currentScene).1 = w := by
      unfold Window.enter
      split
      · contradiction
      · rfl
    rw [hsame]
    exact ⟨rfl, h.resolve_right fun hp => hs hp.1⟩

/-- Buttons that lead nowhere. -/
theorem navigates_self {ds : List Control} (h : ∀ c ∈ ds, ∀ v : Window, v.navigate c = v) :
    ds.foldl Window.navigate w = w := by
  induction ds with
  | nil => rfl
  | cons d ds ih =>
      rw [List.foldl_cons, h d List.mem_cons_self]
      exact ih fun c hc => h c (List.mem_cons_of_mem d hc)

theorem sublist_pair {ds : List Control} (h : ds.Sublist [c, d]) :
    ds = [] ∨ ds = [c] ∨ ds = [d] ∨ ds = [c, d] := by
  have hmem : ds ∈ [[], [c], [d], [c, d]] := List.mem_sublists.mpr h
  simpa using hmem

/-- The buttons of a scene keep the tabs in agreement with it. -/
theorem agrees_pollAll {s : Scene} (hs : w.currentScene = s) (h : w.Disables (disabledTabs s)) :
    Agrees (pollAll i (controls s) w).1 := by
  have hagree : Agrees w := .inl (hs ▸ h)
  have hback : Agrees (w.navigate .pongback) :=
    .inl (disables_navigate (fun _ => hagree.enabled) List.mem_cons_self)
  obtain ⟨ds, hds, ha⟩ := pollAll_alike (w := w) (i := i) (l := controls s)
  refine ha.agrees ?_
  cases s with
  | scanning =>
      rw [navigates_self]
      · exact hagree
      · intro c hc v
        have hmem := hds.subset hc
        cases c <;> first | rfl | simp [controls] at hmem
  | database =>
      rw [navigates_self]
      · exact hagree
      · intro c hc v
        have hmem := hds.subset hc
        cases c <;> first | rfl | simp [controls] at hmem
  | bluetooth =>
      have hpong : Agrees (w.navigate .pong) := .inr ⟨rfl, h⟩
      rcases sublist_pair hds with rfl | rfl | rfl | rfl
      · exact hagree
      · exact hagree
      · exact hpong
      · exact hpong
  | pong =>
      rcases sublist_pair hds with rfl | rfl | rfl | rfl
      · exact hagree
      · exact hback
      · exact hagree
      · exact hback

/-- **In a frame**: the tabs go on to fit the scene. -/
theorem Agrees.frame (h : Agrees w) (i : Input) : Agrees (w.frame i).1 := by
  have hchosen : Agrees (Window.pollFirst i tabs w).1 := h.pollFirst
  obtain ⟨hs, hd⟩ := hchosen.enter
  exact (alike_type _ i _).agrees (agrees_pollAll hs hd)

theorem agrees_create : Agrees create := by
  refine .inl ?_
  intro d
  cases d <;> rfl

/-- **Over a run**: the tabs fit the scene. -/
theorem Agrees.run (h : Agrees w) (inputs : List Input) : Agrees (run w inputs).1 := by
  induction inputs generalizing w with
  | nil => exact h
  | cons i inputs ih => exact ih (h.frame i)

/-! ## Getting from scene to scene -/

/-- The mouse is held down over one button, or over none. -/
def mouse (c : Option Control) : Input := ⟨fun d => some d = c, fun _ => ⟨false, false, false, []⟩⟩

/-- The button was not held down when it was last polled. -/
def Low (w : Window) (c : Control) : Prop := (w.button c).lastClickState = false

/-- Polling another button does not hold this one down. -/
theorem Low.poll_ne (h : Low w d) (hd : d ≠ c) : Low (w.poll i c).2 d := by
  unfold Low
  rw [poll_button_ne hd]
  exact h

theorem low_poll (hq : i.clickState d = false) (h : d = c ∨ Low w d)
    (hon : (w.button d).disabled = false) : Low (w.poll i c).2 d := by
  by_cases hd : d = c
  · subst hd
    unfold Low
    rw [(poll_enabled hon).2, hq]
  · exact (h.resolve_left hd).poll_ne hd

theorem setButton_latch (b : Button) (hb : b.lastClickState = (w.button c).lastClickState) :
    ((w.setButton c b).button d).lastClickState = (w.button d).lastClickState := by
  by_cases hd : d = c
  · rw [hd, setButton_self, hb]
  · rw [setButton_ne hd]

@[simp] theorem enable_latch :
    ((w.enable c).button d).lastClickState = (w.button d).lastClickState := setButton_latch _ rfl

@[simp] theorem disable_latch :
    ((w.disable c).button d).lastClickState = (w.button d).lastClickState := setButton_latch _ rfl

theorem navigate_latch :
    ((w.navigate c).button d).lastClickState = (w.button d).lastClickState := by
  cases c <;> simp [Window.navigate]

theorem enter_latch (s : Scene) :
    (((w.enter s).1).button d).lastClickState = (w.button d).lastClickState := by
  cases s <;> simp [Window.enter]

theorem pollAll_keeps (h : d ∉ l) :
    ((pollAll i l w).1.button d).lastClickState = (w.button d).lastClickState := by
  induction l generalizing w with
  | nil => rfl
  | cons c l ih =>
      obtain ⟨hd, hcs⟩ := List.ne_and_not_mem_of_not_mem_cons h
      have hpoll := poll_button_ne (w := w) (i := i) hd
      rw [pollAll]
      dsimp only
      split
      · rw [ih hcs, navigate_latch, hpoll]
      · rw [ih hcs, hpoll]

theorem low_pollFirst (hq : ∀ c ∈ l, i.clickState c = false) (hd : i.clickState d = false)
    (hon : (w.button d).disabled = false) (h : Low w d) : Low (pollFirst i l w).1 d := by
  induction l generalizing w with
  | nil => exact h
  | cons c l ih =>
      rw [pollFirst, if_neg (poll_quiet (hq c List.mem_cons_self))]
      exact ih (fun e he => hq e (List.mem_cons_of_mem c he)) (poll_flag.trans hon)
        (low_poll hd (.inr h) hon)

/-- Tabs that are not clicked lead nowhere, and are let go. -/
theorem pollFirst_quiet (hq : ∀ c ∈ l, i.clickState c = false) :
    Alike w (pollFirst i l w).1 ∧
      ∀ c ∈ l, (w.button c).disabled = false → Low (pollFirst i l w).1 c := by
  induction l generalizing w with
  | nil => exact ⟨Alike.refl w, fun c hc => absurd hc List.not_mem_nil⟩
  | cons c l ih =>
      have hqc := hq c List.mem_cons_self
      have hqs : ∀ d ∈ l, i.clickState d = false :=
        fun d hd => hq d (List.mem_cons_of_mem c hd)
      rw [pollFirst, if_neg (poll_quiet hqc)]
      obtain ⟨ha, hlow⟩ := ih (w := (w.poll i c).2) hqs
      refine ⟨(alike_poll w i c).trans ha, ?_⟩
      intro d hd hon
      rcases List.mem_cons.mp hd with rfl | hd
      · exact low_pollFirst hqs hqc (poll_flag.trans hon) (low_poll hqc (.inl rfl) hon)
      · exact hlow d hd (poll_flag.trans hon)

/-- The tab that is clicked is the one that leads somewhere. -/
theorem pollFirst_hit (hc : c ∈ l) (hq : ∀ d ∈ l, d ≠ c → i.clickState d = false)
    (hit : i.clickState c = true) (hon : (w.button c).disabled = false) (hlow : Low w c) :
    Alike (w.navigate c) (pollFirst i l w).1 := by
  induction l generalizing w with
  | nil => exact absurd hc List.not_mem_nil
  | cons d l ih =>
      have hpoll := alike_poll w i d
      rw [pollFirst]
      by_cases hd : d = c
      · subst hd
        rw [if_pos (by rw [(poll_enabled hon).1, hit, hlow]; rfl)]
        exact hpoll.navigate d
      · rw [if_neg (poll_quiet (hq d List.mem_cons_self hd))]
        have hmem : c ∈ l := (List.mem_cons.mp hc).resolve_left (Ne.symm hd)
        exact (hpoll.navigate c).trans (ih hmem (fun e he => hq e (List.mem_cons_of_mem d he))
          (poll_flag.trans hon) (hlow.poll_ne (Ne.symm hd)))

/-- Buttons that are not clicked lead nowhere. -/
theorem pollAll_quiet (hq : ∀ c ∈ l, i.clickState c = false) :
    Alike w (pollAll i l w).1 := by
  induction l generalizing w with
  | nil => exact Alike.refl w
  | cons c l ih =>
      rw [pollAll]
      dsimp only
      rw [if_neg (poll_quiet (hq c List.mem_cons_self))]
      exact (alike_poll w i c).trans (ih fun d hd => hq d (List.mem_cons_of_mem c hd))

/-- The button that is clicked is the one that leads somewhere. -/
theorem pollAll_hit (hnd : l.Nodup) (hc : c ∈ l)
    (hq : ∀ d ∈ l, d ≠ c → i.clickState d = false) (hit : i.clickState c = true)
    (hon : (w.button c).disabled = false) (hlow : Low w c) :
    Alike (w.navigate c) (pollAll i l w).1 := by
  induction l generalizing w with
  | nil => exact absurd hc List.not_mem_nil
  | cons d l ih =>
      obtain ⟨hdcs, hnd⟩ := List.nodup_cons.mp hnd
      have hpoll := alike_poll w i d
      rw [pollAll]
      dsimp only
      by_cases hd : d = c
      · subst hd
        rw [if_pos (by rw [(poll_enabled hon).1, hit, hlow]; rfl)]
        refine (hpoll.navigate d).trans (pollAll_quiet ?_)
        intro e he
        exact hq e (List.mem_cons_of_mem d he) fun h => hdcs (h ▸ he)
      · rw [if_neg (poll_quiet (hq d List.mem_cons_self hd))]
        have hmem : c ∈ l := (List.mem_cons.mp hc).resolve_left (Ne.symm hd)
        exact (hpoll.navigate c).trans (ih hnd hmem
          (fun e he => hq e (List.mem_cons_of_mem d he)) (poll_flag.trans hon)
          (hlow.poll_ne (Ne.symm hd)))

theorem enter_scene (s : Scene) : (w.enter s).1.currentScene = w.currentScene := by
  cases s <;> rfl

/-- What a scene starts its buttons from. -/
def entered (w : Window) (i : Input) : Window :=
  ((pollFirst i tabs w).1.enter (w.shown i)).1

theorem frame_scene : (w.frame i).1.currentScene =
    (pollAll i (controls (w.shown i)) (w.entered i)).1.currentScene :=
  type_scene _

theorem frame_button :
    (w.frame i).1.button =
      (pollAll i (controls (w.shown i)) (w.entered i)).1.button :=
  type_button _

theorem navigate_scene (h : w'.currentScene = w.currentScene) :
    (w'.navigate c).currentScene = (w.navigate c).currentScene := by
  cases c <;> first | rfl | exact h

theorem notMem_controls (hc : c ∈ tabs) (s : Scene) : c ∉ controls s := by
  intro h
  cases s <;> cases c <;> simp [controls, tabs] at h hc

/-- A frame without the mouse: the scene stays, and what is polled is let go. -/
theorem frame_release (h : Agrees w) :
    (w.frame (mouse none)).1.currentScene = w.currentScene ∧
      (∀ c ∈ tabs, (w.button c).disabled = false → Low (w.frame (mouse none)).1 c) ∧
      ∀ c ∉ tabs, c ∈ controls w.currentScene → Low (w.frame (mouse none)).1 c := by
  obtain ⟨ha, hlow⟩ := pollFirst_quiet (w := w) (i := mouse none) (l := tabs)
    fun _ _ => rfl
  refine ⟨?_, ?_, ?_⟩
  · have hplayed := pollAll_quiet (i := mouse none) (l := controls (w.shown (mouse none)))
      (w := w.entered (mouse none)) fun _ _ => rfl
    rw [frame_scene]
    exact hplayed.scene.trans ((enter_scene _).trans ha.scene)
  · intro c hc hon
    unfold Low
    rw [frame_button, pollAll_keeps (notMem_controls hc _), entered, enter_latch]
    exact hlow c hc hon
  · intro c hc hmem
    have hsample : sample c w (mouse none) = some false := by
      unfold sample shown
      rw [ha.scene, if_pos hmem]
      rfl
    unfold Low
    rw [(frame_latch hc (h.enabled hc)).1, hsample]
    rfl

theorem mouse_other (h : d ≠ c) : (mouse (some c)).clickState d = false := by
  simpa [mouse] using h

theorem mouse_self : (mouse (some c)).clickState c = true := by
  simp [mouse]

/-- **A tab leads to its scene** when it is enabled and was let go. -/
theorem frame_tab (hc : c ∈ tabs) (hon : (w.button c).disabled = false) (hlow : Low w c) :
    (w.frame (mouse (some c))).1.currentScene = (w.navigate c).currentScene := by
  have ha := pollFirst_hit hc (fun d _ => mouse_other) mouse_self hon hlow
  have hplayed := pollAll_quiet (i := mouse (some c))
    (l := controls (w.shown (mouse (some c)))) (w := w.entered (mouse (some c)))
    fun d hd => mouse_other fun h => notMem_controls hc _ (h ▸ hd)
  rw [frame_scene]
  exact hplayed.scene.trans ((enter_scene _).trans ha.scene)

/-- **A button of the scene leads where it leads** when it was let go. -/
theorem frame_control (h : Agrees w) (hc : c ∉ tabs) (hmem : c ∈ controls w.currentScene)
    (hlow : Low w c) :
    (w.frame (mouse (some c))).1.currentScene = (w.navigate c).currentScene := by
  obtain ⟨ha, -⟩ := pollFirst_quiet (w := w) (i := mouse (some c)) (l := tabs)
    fun d hd => mouse_other fun he => hc (he ▸ hd)
  have hshown : w.shown (mouse (some c)) = w.currentScene := ha.scene
  have hbut : (w.entered (mouse (some c))).button c = w.button c := by
    rw [entered, enter_button hc, (pollFirst_other hc hc).1]
  have hscene : (w.entered (mouse (some c))).currentScene = w.currentScene :=
    (enter_scene _).trans ha.scene
  have hplayed := pollAll_hit (nodup_controls _) hmem (fun d _ => mouse_other) mouse_self
    (by rw [hbut]; exact h.enabled hc) (by unfold Low; rw [hbut]; exact hlow)
  rw [frame_scene, hshown]
  exact hplayed.scene.trans (navigate_scene hscene)

/-! ## Every scene can be reached -/

/-- The user can get from a window to a scene in at most `n` frames, one button at a time. -/
def Leads (w : Window) (n : Nat) (s : Scene) : Prop :=
  ∃ l : List (Option Control), l.length ≤ n ∧ (run w (l.map mouse)).1.currentScene = s

theorem run_append (is js : List Input) : (run w (is ++ js)).1 = (run (run w is).1 js).1 := by
  induction is generalizing w with
  | nil => rfl
  | cons i is ih => exact ih

/-- From one scene to the next, and on from there. -/
theorem Leads.trans {m n : Nat} {s t : Scene} (h : Agrees w) (hs : Leads w m s)
    (ht : ∀ v, Agrees v → v.currentScene = s → Leads v n t) : Leads w (m + n) t := by
  obtain ⟨l, hlen, hrun⟩ := hs
  obtain ⟨ds, hlen', hrun'⟩ := ht _ (h.run (l.map mouse)) hrun
  refine ⟨l ++ ds, ?_, ?_⟩
  · rw [List.length_append]
    omega
  · rw [List.map_append, run_append, hrun']

/-- A scene with the tabs is left by any other tab. -/
theorem leads_tab (h : Agrees w) (hw : w.currentScene ≠ .pong) (hc : c ∈ tabs) :
    Leads w 2 (w.navigate c).currentScene := by
  by_cases hmem : c ∈ disabledTabs w.currentScene
  · refine ⟨[], by simp, ?_⟩
    cases hs : w.currentScene with
    | pong => exact absurd hs hw
    | _ =>
      rw [hs] at hmem
      obtain rfl : c = _ := List.mem_singleton.mp hmem
      exact hs
  · have hagree : Agrees (w.frame (mouse none)).1 := h.frame _
    obtain ⟨hscene, hlow, -⟩ := frame_release h
    have hflag : ∀ v, Agrees v → v.currentScene = w.currentScene →
        (v.button c).disabled = false := by
      intro v hv hs
      have hd := hv.resolve_right fun hp => hw (hs.symm.trans hp.1)
      simpa [hs, hmem] using hd c
    refine ⟨[none, some c], by simp, ?_⟩
    show ((w.frame (mouse none)).1.frame (mouse (some c))).1.currentScene = _
    rw [frame_tab hc (hflag _ hagree hscene) (hlow c hc (hflag w h rfl))]
    exact navigate_scene hscene

/-- A button of a scene leads where it leads. -/
theorem leads_control (h : Agrees w) (hc : c ∉ tabs) (hmem : c ∈ controls w.currentScene) :
    Leads w 2 (w.navigate c).currentScene := by
  obtain ⟨hscene, -, hlow⟩ := frame_release h
  refine ⟨[none, some c], by simp, ?_⟩
  show ((w.frame (mouse none)).1.frame (mouse (some c))).1.currentScene = _
  rw [frame_control (h.frame _) hc (by rw [hscene]; exact hmem) (hlow c hc hmem)]
  exact navigate_scene hscene

/-- Out of the game, if need be. -/
theorem leads_out (h : Agrees w) : ∃ s, s ≠ .pong ∧ Leads w 2 s := by
  by_cases hs : w.currentScene = .pong
  · have hback : Control.pongback ∈ controls w.currentScene := by simp [hs, controls]
    exact ⟨.bluetooth, by simp, leads_control h (by simp [tabs]) hback⟩
  · exact ⟨w.currentScene, hs, [], by simp, rfl⟩

theorem Leads.mono {m n : Nat} {s : Scene} (h : Leads w m s) (hmn : m ≤ n) : Leads w n s := by
  obtain ⟨l, hlen, hrun⟩ := h
  exact ⟨l, by omega, hrun⟩

/-- A tab leads to its scene, from the game by way of its back button. -/
theorem leads_through {s : Scene} (h : Agrees w) (hc : c ∈ tabs)
    (hs : ∀ v : Window, (v.navigate c).currentScene = s) : Leads w 4 s := by
  obtain ⟨t, ht, hout⟩ := leads_out h
  refine hout.trans (n := 2) h ?_
  intro v hv hvt
  exact hs v ▸ leads_tab hv (hvt ▸ ht) hc

/-- **A button acts once for each time it is clicked**, in every run: between two frames that
find it pressed there is one that finds it let go, and between a frame that finds it let go
and one that finds it held down it is pressed. -/
theorem pressed_once (inputs : List Input) (hc : c ∉ tabs) {i j : Nat} (hij : i < j) :
    (((run create inputs).2.map (pressedIn c))[i]? = some true →
      ((run create inputs).2.map (pressedIn c))[j]? = some true →
      ∃ k, i < k ∧ k < j ∧ (samples c create inputs)[k]? = some (some false)) ∧
    ((samples c create inputs)[i]? = some (some false) →
      (samples c create inputs)[j]? = some (some true) →
      ∃ k, i < k ∧ k ≤ j ∧ ((run create inputs).2.map (pressedIn c))[k]? = some true) := by
  rw [presses_eq_rises hc (agrees_create.enabled hc)]
  exact ⟨exists_low_between hij, exists_rise_between hij⟩

theorem pressed_once_red :
    ((run create [mouse (some .amplifyRed), mouse none, mouse (some .amplifyRed)]).2.map
        (pressedIn .amplifyRed))[2]? = some true ∧
      ∃ k, 0 < k ∧ k < 2 ∧ (samples .amplifyRed create
        [mouse (some .amplifyRed), mouse none, mouse (some .amplifyRed)])[k]? =
          some (some false) :=
  have hfirst : ((run create [mouse (some .amplifyRed), mouse none,
      mouse (some .amplifyRed)]).2.map (pressedIn .amplifyRed))[0]? = some true := by
    decide +kernel
  have hthird : ((run create [mouse (some .amplifyRed), mouse none,
      mouse (some .amplifyRed)]).2.map (pressedIn .amplifyRed))[2]? = some true := by
    decide +kernel
  ⟨hthird, (pressed_once _ (by simp [tabs]) (by omega : 0 < 2)).1 hfirst hthird⟩

end ScoutComputer.Window
