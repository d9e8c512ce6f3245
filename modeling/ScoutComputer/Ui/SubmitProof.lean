import ScoutComputer.Data.MatchListProof
import ScoutComputer.Ui.MainProof
import ScoutComputer.Ui.TextBoxProof

/-!
# What the window submits

A button acts on the texts as they are when it is pressed: what was typed into each box in
the frames before this one that drew it. The text of `MatchBoxMain` is spliced into the
statement of `AmplifyRed` as it is.
-/

namespace ScoutComputer.Window

open SqlText TextBox

variable {w : Window} {input : Input} {c : Control} {cs : List Control} {ts : List Task} {b : Box}

/-! ## The texts -/

theorem type_box {bs : List Box} (hnd : bs.Nodup) : (type input bs w).box b =
    if b ∈ bs then (w.box b).updateText (input.typing b) else w.box b := by
  induction bs generalizing w with
  | nil => rfl
  | cons a bs ih =>
      obtain ⟨ha, hnd⟩ := List.nodup_cons.mp hnd
      rw [type, ih hnd]
      by_cases hb : b = a
      · subst hb
        rw [if_neg ha, if_pos List.mem_cons_self]
        exact Function.update_self b _ w.box
      · simp only [List.mem_cons, hb, false_or, Function.update_of_ne hb]

theorem nodup_boxes (s : Scene) : (boxes s).Nodup := by
  cases s <;> simp [boxes]

/-- **In a frame**: the boxes of the scene shown take what is typed. -/
theorem frame_box : (w.frame input).1.box b =
    if b ∈ boxes (w.shown input) then (w.box b).updateText (input.typing b) else w.box b := by
  have hbox : (pollAll input (controls (w.shown input)) (w.entered input)).1.box = w.box := by
    rw [pollAll_box, entered, enter_box, pollFirst_box]
  show (type _ _ _).box b = _
  rw [type_box (nodup_boxes _)]
  show (if b ∈ boxes (w.shown input) then _ else _) = _
  rw [← hbox]
  rfl

/-- What is typed in the frames of a run that draw a box. -/
def drawn (b : Box) : Window → List Input → List Frame
  | _, [] => []
  | w, input :: inputs =>
      if b ∈ boxes (w.shown input) then input.typing b :: drawn b (w.frame input).1 inputs
      else drawn b (w.frame input).1 inputs

/-- **Over a run**: a box holds what was typed while it was drawn. -/
theorem run_box (inputs : List Input) :
    (run w inputs).1.box b = (drawn b w inputs).foldl updateText (w.box b) := by
  induction inputs generalizing w with
  | nil => rfl
  | cons input inputs ih =>
      have hrest := ih (w := (w.frame input).1)
      rw [frame_box] at hrest
      unfold drawn
      by_cases hb : b ∈ boxes (w.shown input)
      · rw [if_pos hb] at hrest ⊢
        exact hrest
      · rw [if_neg hb] at hrest ⊢
        exact hrest

/-! ## The tasks -/

theorem tasks_of_pollFirst (h : .pressed c ts ∈ (pollFirst input cs w).2) : ts = w.tasks c := by
  induction cs generalizing w with
  | nil => exact absurd h List.not_mem_nil
  | cons d cs ih =>
      rw [pollFirst] at h
      split at h
      · obtain ⟨rfl, rfl⟩ := Event.pressed.inj (List.mem_singleton.mp h)
        exact tasks_congr poll_box
      · exact (ih h).trans (tasks_congr poll_box)

theorem tasks_of_pollAll (h : .pressed c ts ∈ (pollAll input cs w).2) : ts = w.tasks c := by
  induction cs generalizing w with
  | nil => exact absurd h List.not_mem_nil
  | cons d cs ih =>
      rw [pollAll] at h
      dsimp only at h
      split at h
      · rcases List.mem_cons.mp h with h | h
        · obtain ⟨rfl, rfl⟩ := Event.pressed.inj h
          exact tasks_congr poll_box
        · exact (ih h).trans (tasks_congr (navigate_box.trans poll_box))
      · exact (ih h).trans (tasks_congr poll_box)

/-- A button acts on the texts the frame starts with. -/
theorem tasks_of_pressed (h : .pressed c ts ∈ (w.frame input).2) : ts = w.tasks c := by
  have hbox : (w.entered input).box = w.box := by rw [entered, enter_box, pollFirst_box]
  have hsplit : .pressed c ts ∈ (pollFirst input tabs w).2 ∨
      .pressed c ts ∈ ((pollFirst input tabs w).1.enter (w.shown input)).2 ∨
      .pressed c ts ∈ (pollAll input (controls (w.shown input)) (w.entered input)).2 := by
    rcases List.mem_append.mp h with h | h
    · exact .inl h
    · exact .inr (List.mem_append.mp ((List.mem_cons.mp h).resolve_left (by simp)))
  rcases hsplit with h | h | h
  · exact tasks_of_pollFirst h
  · unfold enter at h
    split at h <;> simp at h
  · exact (tasks_of_pollAll h).trans (tasks_congr hbox)

/-! ## The statement of `AmplifyRed` -/

/-- The statement up to the parenthesis that opens the values. -/
def amplifyHead : List Lexeme :=
  [keyword "insert", blank, keyword "into", blank, keyword "matchtransaction", blank, sep 40,
    blank, keyword "MatchId", sep comma, blank, keyword "ScouterID", sep comma, blank,
    keyword "DataPointID", sep comma, blank, blank, keyword "DCValue", sep comma, blank,
    keyword "TeamID", sep comma, keyword "AllianceID", sep 41, blank, keyword "values", blank]

/-- The values behind the first one. -/
def amplifyTail : List Lexeme :=
  [sep 45, keyword "1", sep comma, keyword "11", sep comma,
    (.str (bytes "true"), bytes "'true'"), sep comma, blank, sep 45, keyword "1", sep comma,
    blank, (.str (bytes "Red"), bytes "'Red'"), sep 41, sep 59]

section
variable (version : Nat) (Value : List Lexeme → Prop)

/-- A server of that version reads `text` as an INSERT of the six values whose first is `matchId`. -/
def ReadsAsAmplify (text matchId : List Byte) : Prop :=
  ∃ m, Lexes version text (amplifyHead ++ sep 40 :: (m ++ sep comma :: amplifyTail)) ∧
    rawText m = matchId ∧ Value m

/-- In front of a comma, a text reads as one value, and leaves no version comment open. -/
def OneValue (s : List Byte) : Prop :=
  ∃ m, Lexes version (s ++ [comma]) (m ++ [sep comma]) ∧ Value m

variable {version Value}

theorem amplifyRedStatement_eq (matchId : List Byte) : amplifyRedStatement matchId =
    rawText amplifyHead ++ 40 :: (matchId ++ comma :: rawText amplifyTail) := by
  have hhead : bytes "insert into matchtransaction ( MatchId, ScouterID, DataPointID,  DCValue, TeamID,AllianceID) values (" =
      rawText amplifyHead ++ [40] := by decide +kernel
  have htail : bytes ",-1,11,'true', -1, 'Red');" = comma :: rawText amplifyTail := by
    decide +kernel
  unfold amplifyRedStatement
  rw [hhead, htail]
  simp

theorem zero_notMem_amplifyRed {matchId : List Byte} (h0 : 0 ∉ matchId) :
    0 ∉ amplifyRedStatement matchId := by
  have hhead : 0 ∉ rawText amplifyHead := by decide +kernel
  have htail : 0 ∉ comma :: rawText amplifyTail := by decide +kernel
  rw [amplifyRedStatement_eq]
  intro h
  rcases List.mem_append.mp h with h | h
  · exact hhead h
  · rcases List.mem_append.mp ((List.mem_cons.mp h).resolve_left (by decide)) with h | h
    · exact h0 h
    · exact htail h

/-- The statement inserts what was typed exactly when that reads as one value. -/
theorem reads_amplifyRed_iff {matchId : List Byte} (h0 : 0 ∉ matchId) :
    ReadsAsAmplify version Value (execQuery (amplifyRedStatement matchId)) matchId ↔
      OneValue version Value matchId := by
  have hhead : Lexes version (rawText amplifyHead ++ [40]) (amplifyHead ++ [sep 40]) :=
    Reads.of_noSlash (by decide +kernel) (by decide +kernel) version
  -- no comment is opened or closed behind the value, so none may be open there
  have htail : ∀ b, Reads version b (rawText amplifyTail) amplifyTail b := by
    intro b
    cases b
    · exact Reads.of_noSlash (by decide +kernel) (by decide +kernel) version
    · exact Reads.of_noSlash (by decide +kernel) (by decide +kernel) version
  have hcut : ∀ m, rawText m = matchId →
      (Lexes version (execQuery (amplifyRedStatement matchId))
          (amplifyHead ++ sep 40 :: (m ++ sep comma :: amplifyTail)) ↔
        Lexes version (matchId ++ [comma]) (m ++ [sep comma])) := by
    intro m hm
    rw [execQuery, cStr_eq_self (zero_notMem_amplifyRed h0), amplifyRedStatement_eq, ← hm]
    constructor
    · intro hlex
      obtain ⟨b, hb, hlex⟩ := (reads_cut (p := 40) rfl).mp hlex
      obtain ⟨-, rfl⟩ := hb.unique hhead
      obtain ⟨b, hb, hlex⟩ := (reads_cut (p := comma) rfl).mp hlex
      obtain ⟨-, rfl⟩ := hlex.unique (htail b)
      exact hb
    · intro hlex
      exact Reads.after (p := 40) rfl hhead (Reads.after (p := comma) rfl hlex (htail false))
  constructor
  · rintro ⟨m, hlex, hm, hv⟩
    exact ⟨m, (hcut m hm).mp hlex, hv⟩
  · rintro ⟨m, hlex, hv⟩
    have hm : rawText m = matchId := by
      have htext := hlex.rawText_eq
      rw [rawText_append] at htext
      exact List.append_cancel_right htext
    exact ⟨m, (hcut m hm).mpr hlex, hm, hv⟩

end

/-- What a box holds is what an editor makes of what was typed while it was drawn. -/
theorem text_eq (inputs : List Input) (b : Box) : ((run create inputs).1.box b).getText =
    ((drawn b create inputs).foldl Editor.step (Editor.empty b.sizeLimit)).text := by
  have hbox : (run create inputs).1.box b =
      TextBox.run b.sizeLimit true (drawn b create inputs) := run_box inputs
  have hlimit : b.sizeLimit < 2 ^ 31 - 1 := by cases b <;> decide
  rw [hbox, ← editor_run hlimit]
  rfl

/--
**What `AmplifyRed` submits**, in every run: the text an editor makes of what was typed while
its box was drawn, with room for ten characters, in one statement, which inserts it exactly
when it reads as one value.
-/
theorem amplifyRed_submits (inputs : List Input) (input : Input)
    (h : .pressed .amplifyRed ts ∈ ((run create inputs).1.frame input).2) :
    ∃ matchId, matchId = ((drawn .matchBoxMain create inputs).foldl Editor.step
          (Editor.empty 10)).text ∧
      ts = [.execQuery (amplifyRedStatement matchId) 0, .toast "Amplify Red Started"] ∧
      ∀ version Value,
        ReadsAsAmplify version Value (execQuery (amplifyRedStatement matchId)) matchId ↔
          OneValue version Value matchId := by
  have hzero : 0 ∉ ((run create inputs).1.box .matchBoxMain).getText := notMem_cStr _
  exact ⟨_, text_eq inputs .matchBoxMain, tasks_of_pressed h,
    fun _ _ => reads_amplifyRed_iff hzero⟩

/-- The box is clicked and `12` is typed into it. -/
def typeTwelve : Input :=
  ⟨fun _ => false, fun b => ⟨true, b = .matchBoxMain, false, [49, 50]⟩⟩

theorem amplifyRed_submits_twelve :
    ∃ ts matchId, matchId = bytes "12" ∧
      .pressed .amplifyRed ts ∈
        ((run create [typeTwelve]).1.frame (mouse (some .amplifyRed))).2 ∧
      ts = [.execQuery (amplifyRedStatement matchId) 0, .toast "Amplify Red Started"] ∧
      (ReadsAsAmplify 80400 oneNumber (execQuery (amplifyRedStatement matchId)) matchId ↔
        OneValue 80400 oneNumber matchId) := by
  have hpress : .pressed .amplifyRed [.execQuery (amplifyRedStatement (bytes "12")) 0,
      .toast "Amplify Red Started"] ∈
      ((run create [typeTwelve]).1.frame (mouse (some .amplifyRed))).2 := by
    decide +kernel
  obtain ⟨matchId, hedit, hts, hreads⟩ := amplifyRed_submits _ _ hpress
  have htwelve : matchId = bytes "12" := hedit.trans (by decide +kernel)
  exact ⟨_, matchId, htwelve, hpress, hts, hreads _ _⟩

/-! ## The statements of `tournamentSubmit` -/

/-- What match `k` of the table is called. -/
def kindOf (k : Nat) : String := if k < 100 then "Practice" else if k < 200 then "Qual" else "Playoff"

theorem plain_kindOf (k : Nat) : plainText (bytes (kindOf k)) ∧ 0 ∉ bytes (kindOf k) := by
  unfold kindOf
  split
  · decide +kernel
  · split
    · decide +kernel
    · decide +kernel

/-- The statement is the one `addMatchList` would submit. -/
theorem reads_matchStatement {version k : Nat} (hk : k < 2 ^ 31) {kind : String}
    (hplain : plainText (bytes kind)) (h0 : 0 ∉ bytes kind) :
    ReadsAsScmatch version (execQuery (matchStatement k kind)) k (bytes kind) (bytes kind) := by
  have hid : (Int32.ofNat k).toInt = k := Int32.toInt_ofNat_of_lt hk
  let m : MatchlistDatapoint := ⟨Int32.ofNat k, bytes kind, bytes kind⟩
  have hreads : ReadsAsScmatch version (execQuery (insertMatchlist m)) m.MatchId.toInt
      (bytes kind) (bytes kind) := reads_of_plain hplain hplain ⟨h0, h0⟩
  have hsame : insertMatchlist ⟨Int32.ofNat k, bytes kind, bytes kind⟩ = matchStatement k kind := by
    unfold insertMatchlist matchStatement
    rw [hid]
  rw [show insertMatchlist m = _ from hsame] at hreads
  exact hid ▸ hreads

/-- The three loops are one over all matches. -/
theorem matchTasks_eq :
    matchTasks = (List.range 250).map fun k => .execQuery (matchStatement k (kindOf k)) 0 := by
  have hsplit : List.range 250 =
      List.range' 0 100 ++ List.range' 100 100 ++ List.range' 200 50 := by
    rw [List.range_eq_range', ← List.range'_append_1 (s := 0) (m := 200) (n := 50),
      ← List.range'_append_1 (s := 0) (m := 100) (n := 100)]
  have hkind : ∀ (kind : String) (s n : Nat), (∀ k, s ≤ k → k < s + n → kindOf k = kind) →
      (List.range' s n).map (fun k => Task.execQuery (matchStatement k kind) 0) =
        (List.range' s n).map fun k => .execQuery (matchStatement k (kindOf k)) 0 := by
    intro kind s n h
    refine List.map_congr_left ?_
    intro k hk
    obtain ⟨hlo, hhi⟩ := List.mem_range'_1.mp hk
    rw [h k hlo hhi]
  have hpractice := hkind "Practice" 0 100 fun k _ hk => if_pos (by omega)
  have hqual := hkind "Qual" 100 100 fun k hlo hhi => by
    unfold kindOf
    rw [if_neg (by omega), if_pos (by omega)]
  have hplayoff := hkind "Playoff" 200 50 fun k hlo hhi => by
    unfold kindOf
    rw [if_neg (by omega), if_neg (by omega)]
  unfold matchTasks
  rw [hpractice, hqual, hplayoff, hsplit, List.map_append, List.map_append]

/--
**What `tournamentSubmit` submits**, in every run: the event key an editor makes of what was
typed while its box was drawn, and then 250 statements, the k-th of which inserts match k.
-/
theorem tournamentSubmit_submits (inputs : List Input) (input : Input)
    (h : .pressed .tournamentSubmit ts ∈ ((run create inputs).1.frame input).2) :
    ∃ eventkey, eventkey = ((drawn .tournamentMatch create inputs).foldl Editor.step
          (Editor.empty 15)).text ∧
      ∃ texts : List (List Byte),
        ts = .getteamsatcomphdata eventkey :: texts.map (fun text => .execQuery text 0) ∧
        texts.length = 250 ∧ ∀ (k : Nat) text, texts[k]? = some text →
          ∀ version, ReadsAsScmatch version (execQuery text) k (bytes (kindOf k)) (bytes (kindOf k)) := by
  refine ⟨_, text_eq inputs .tournamentMatch,
    (List.range 250).map fun k => matchStatement k (kindOf k), ?_, by simp, ?_⟩
  · rw [tasks_of_pressed h, List.map_map]
    exact congrArg (Task.getteamsatcomphdata _ :: ·) matchTasks_eq
  · intro k text htext version
    rw [List.getElem?_map] at htext
    obtain ⟨j, hj, rfl⟩ := Option.map_eq_some_iff.mp htext
    obtain ⟨hlt, hkj⟩ := List.getElem?_eq_some_iff.mp hj
    rw [List.getElem_range] at hkj
    subst hkj
    rw [List.length_range] at hlt
    obtain ⟨hplain, h0⟩ := plain_kindOf k
    exact reads_matchStatement (by omega) hplain h0

theorem exists_of_pressedIn {es : List Event} (h : pressedIn c es = true) :
    ∃ ts, .pressed c ts ∈ es := by
  obtain ⟨e, he, hc⟩ := List.any_eq_true.mp h
  cases e with
  | pressed d ts =>
      obtain rfl : d = c := by simpa [isPress] using hc
      exact ⟨ts, he⟩
  | _ => exact absurd hc (by simp [isPress])

/-- The screen of the database is shown, and `isde` is typed into the box of the event. -/
def typeIsde : List Input :=
  [mouse (some .databaseTab),
    ⟨fun _ => false, fun b => ⟨true, b = .tournamentMatch, false, [105, 115, 100, 101]⟩⟩]

theorem tournamentSubmit_submits_isde :
    ∃ ts eventkey, eventkey = bytes "isde" ∧
      .pressed .tournamentSubmit ts ∈
        ((run create typeIsde).1.frame (mouse (some .tournamentSubmit))).2 ∧
      ∃ texts : List (List Byte),
        ts = .getteamsatcomphdata eventkey :: texts.map (fun text => .execQuery text 0) ∧
        texts.length = 250 ∧ ∀ (k : Nat) text, texts[k]? = some text →
          ∀ version, ReadsAsScmatch version (execQuery text) k (bytes (kindOf k)) (bytes (kindOf k)) := by
  have hpress : pressedIn .tournamentSubmit
      ((run create typeIsde).1.frame (mouse (some .tournamentSubmit))).2 = true := by
    decide +kernel
  obtain ⟨ts, hts⟩ := exists_of_pressedIn hpress
  obtain ⟨eventkey, hedit, hrest⟩ := tournamentSubmit_submits _ _ hts
  have hisde : eventkey = bytes "isde" := hedit.trans (by decide +kernel)
  exact ⟨ts, eventkey, hisde, hts, hrest⟩

end ScoutComputer.Window
