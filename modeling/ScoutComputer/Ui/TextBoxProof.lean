import ScoutComputer.Lib.Terminated
import ScoutComputer.Ui.TextBox

/-!
# The buffer of a `TextBox`

`currentChar` is where the terminator is, and no cell in front of it has one, so the text
is as long as `currentChar` says. What the box does to its buffer is what an editor does
to a text: backspace drops the last character, and typing appends as long as there is
room.

All of this needs the buffer to be there. The constructor computes `sizeLimit + 1` as an
`int`, which overflows at the largest one, and does not look at what `calloc` returns; a box
without cells writes through a NULL pointer at the first key.
-/

namespace ScoutComputer

open Terminated

namespace TextBox

/-- **The buffer invariant.** -/
structure WellFormed (sizeLimit : Nat) (box : TextBox) : Prop where
  limit : box.sizeLimit = (sizeLimit : Int)
  cells : box.text.length = sizeLimit + 1
  nonneg : 0 ≤ box.currentChar
  le_limit : box.currentChar ≤ sizeLimit
  ends : EndsAt 0 box.text box.currentChar.toNat
  /-- Every write has gone to one of the cells. -/
  inside : ∀ i ∈ box.writes, 0 ≤ i ∧ i ≤ sizeLimit

variable {sizeLimit : Nat} {box : TextBox} {key : Int}

/-- As long as `sizeLimit + 1` is an `int`, it is what `calloc` is asked for. -/
theorem text_create (h : sizeLimit < 2 ^ 31 - 1) :
    (create sizeLimit true).text = List.replicate (sizeLimit + 1) 0 := by
  have hint : toInt32 ((sizeLimit : Int) + 1) = ((sizeLimit + 1 : Nat) : Int) := by
    unfold toInt32
    rw [Int.bmod_eq_of_le (by omega) (by omega)]
    rfl
  have hsize : toSizeT ((sizeLimit + 1 : Nat) : Int) = sizeLimit + 1 := by
    unfold toSizeT
    omega
  unfold create
  dsimp only
  rw [hint, hsize]
  exact if_pos ⟨rfl, by omega⟩

theorem wellFormed_create (h : sizeLimit < 2 ^ 31 - 1) :
    WellFormed sizeLimit (create sizeLimit true) where
  limit := rfl
  cells := by
    rw [text_create h]
    exact List.length_replicate
  nonneg := Int.le_refl 0
  le_limit := Int.natCast_nonneg sizeLimit
  ends := by
    refine ⟨?_, fun i hi => absurd hi (Nat.not_lt_zero i)⟩
    rw [text_create h, List.replicate_succ]
    rfl
  inside _ h := absurd h List.not_mem_nil

/-- Selecting a box does not touch its buffer. -/
theorem WellFormed.select (h : WellFormed sizeLimit box) (selected : Bool) :
    WellFormed sizeLimit { box with selected := selected } :=
  ⟨h.limit, h.cells, h.nonneg, h.le_limit, h.ends, h.inside⟩

/-! ## Backspace -/

/-- Where backspace puts the terminator. -/
theorem erase_eq (box : TextBox) :
    box.erase = { box with
      currentChar := (box.currentChar.toNat - 1 : Nat)
      text := box.text.set (box.currentChar.toNat - 1) 0
      writes := box.writes ++ [((box.currentChar.toNat - 1 : Nat) : Int)] } := by
  have hchar : (if box.currentChar - 1 < 0 then 0 else box.currentChar - 1) =
      ((box.currentChar.toNat - 1 : Nat) : Int) := by
    split <;> omega
  unfold erase write
  rw [hchar]
  rfl

theorem WellFormed.erase (h : WellFormed sizeLimit box) : WellFormed sizeLimit box.erase := by
  have hle := h.le_limit
  rw [erase_eq]
  refine ⟨h.limit, ?_, Int.natCast_nonneg _, ?_, ?_, ?_⟩
  · rw [List.length_set]
    exact h.cells
  · show ((box.currentChar.toNat - 1 : Nat) : Int) ≤ sizeLimit
    omega
  · exact h.ends.cut (Nat.sub_le _ 1)
  · intro i hi
    rcases List.mem_append.mp hi with hi | hi
    · exact h.inside i hi
    · rw [List.mem_singleton.mp hi]
      omega

theorem getText_erase (h : WellFormed sizeLimit box) :
    box.erase.getText = box.getText.dropLast := by
  have hlen : box.getText.length = box.currentChar.toNat := h.ends.length_contents
  rw [List.dropLast_eq_take, hlen, erase_eq]
  exact h.ends.contents_cut (Nat.sub_le _ 1)

/-! ## Typing -/

theorem append_eq (h0 : 0 ≤ box.currentChar) :
    box.append key = { box with
      currentChar := (box.currentChar.toNat + 1 : Nat)
      text := (box.text.set box.currentChar.toNat (UInt8.ofInt key)).set
        (box.currentChar.toNat + 1) 0
      writes := box.writes ++ [box.currentChar] ++ [box.currentChar + 1] } := by
  have hsucc : (box.currentChar + 1).toNat = box.currentChar.toNat + 1 := by omega
  have hchar : box.currentChar + 1 = ((box.currentChar.toNat + 1 : Nat) : Int) := by omega
  unfold append write
  dsimp only
  rw [hsucc, hchar]

/-- A character that is accepted is not the terminator. -/
theorem ofInt_ne_zero (h : box.accepts key) : UInt8.ofInt key ≠ 0 := by
  obtain ⟨⟨hlo, hhi⟩, _⟩ := h
  intro h0
  have hnat : (UInt8.ofInt key).toNat = 0 := congrArg UInt8.toNat h0
  unfold UInt8.ofInt at hnat
  rw [UInt8.toNat_ofNat'] at hnat
  omega

theorem WellFormed.lt_limit (h : WellFormed sizeLimit box) (ha : box.accepts key) :
    box.currentChar < sizeLimit := by
  have hlt := ha.2
  rw [h.limit] at hlt
  exact hlt

theorem WellFormed.append (h : WellFormed sizeLimit box) (ha : box.accepts key) :
    WellFormed sizeLimit (box.append key) := by
  have h0 := h.nonneg
  have hlt := h.lt_limit ha
  have hcells := h.cells
  rw [append_eq h0]
  refine ⟨h.limit, ?_, Int.natCast_nonneg _, ?_, ?_, ?_⟩
  · rw [List.length_set, List.length_set]
    exact hcells
  · show ((box.currentChar.toNat + 1 : Nat) : Int) ≤ sizeLimit
    omega
  · exact h.ends.push (ofInt_ne_zero ha) (by omega)
  · intro i hi
    rcases List.mem_append.mp hi with hi | hi
    · rcases List.mem_append.mp hi with hi | hi
      · exact h.inside i hi
      · rw [List.mem_singleton.mp hi]
        omega
    · rw [List.mem_singleton.mp hi]
      omega

theorem getText_append (h : WellFormed sizeLimit box) (ha : box.accepts key) :
    (box.append key).getText = box.getText ++ [UInt8.ofInt key] := by
  have h0 := h.nonneg
  have hlt := h.lt_limit ha
  have hcells := h.cells
  rw [append_eq h0]
  exact h.ends.contents_push (ofInt_ne_zero ha) (by omega)

theorem WellFormed.typing (h : WellFormed sizeLimit box) (queue : List Int) (key : Int) :
    WellFormed sizeLimit (typing queue key box) := by
  induction queue generalizing key box with
  | nil =>
      unfold TextBox.typing
      split
      · rename_i ha
        exact h.append ha
      · exact h
  | cons next queue ih =>
      unfold TextBox.typing
      split
      · rename_i ha
        exact ih (h.append ha) next
      · exact h

/-! ## Frames -/

theorem WellFormed.edit (h : WellFormed sizeLimit box) (frame : Frame) :
    WellFormed sizeLimit (box.edit frame) := by
  unfold TextBox.edit
  split
  · dsimp only
    split
    · exact h.erase.typing _ _
    · exact h.typing _ _
  · exact h

theorem WellFormed.updateText (h : WellFormed sizeLimit box) (frame : Frame) :
    WellFormed sizeLimit (box.updateText frame) := by
  unfold TextBox.updateText
  split
  · exact (h.select frame.hovering).edit frame
  · exact h.edit frame

theorem wellFormed_run (h : sizeLimit < 2 ^ 31 - 1) (frames : List Frame) :
    WellFormed sizeLimit (run sizeLimit true frames) := by
  have hrun : ∀ box, WellFormed sizeLimit box →
      WellFormed sizeLimit (frames.foldl TextBox.updateText box) := by
    induction frames with
    | nil => exact fun _ h => h
    | cons frame frames ih => exact fun _ h => ih _ (h.updateText frame)
  exact hrun _ (wellFormed_create h)

/-! ## The editor -/

/-- A text for which there is room, and whether the keys go to it. -/
@[ext]
structure Editor (limit : Nat) where
  selected : Bool
  text : List Byte
  fits : text.length ≤ limit

def printable (key : Int) : Prop := key > 31 ∧ key < 123

instance : DecidablePred printable := fun key => by
  unfold printable
  infer_instance

/-- The keys in front of the first one that is no character of a text, as far as there is
room for them. -/
def entered (room : Nat) (keys : List Int) : List Int :=
  (keys.takeWhile (printable ·)).take room

theorem entered_cons_pos {room : Nat} (keys : List Int) (hp : printable key) (hr : 0 < room) :
    entered room (key :: keys) = key :: entered (room - 1) keys := by
  unfold entered
  rw [List.takeWhile_cons_of_pos (by simpa using hp), List.take_cons hr]

theorem entered_cons_neg {room : Nat} (keys : List Int) (h : ¬(printable key ∧ 0 < room)) :
    entered room (key :: keys) = [] := by
  unfold entered
  by_cases hp : printable key
  · have hr : room = 0 := by
      have : ¬0 < room := fun hr => h ⟨hp, hr⟩
      omega
    rw [hr, List.take_zero]
  · rw [List.takeWhile_cons_of_neg (by simpa using hp), List.take_nil]

/-- An empty queue gives the key 0, which is no character. -/
theorem entered_headD_tail (room : Nat) (keys : List Int) :
    entered room (keys.headD 0 :: keys.tail) = entered room keys := by
  cases keys with
  | nil =>
      have hzero : ¬printable 0 := by decide
      have hnone : entered room [0] = [] := entered_cons_neg [] fun h => hzero h.1
      rw [List.headD_nil, List.tail_nil, hnone]
      unfold entered
      rw [List.takeWhile_nil, List.take_nil]
  | cons key keys => rfl

namespace Editor

variable {limit : Nat}

def empty (limit : Nat) : Editor limit := ⟨false, [], Nat.zero_le limit⟩

/-- The last character is taken away. -/
def backspace (e : Editor limit) : Editor limit where
  selected := e.selected
  text := e.text.dropLast
  fits := by
    have hfits := e.fits
    rw [List.length_dropLast]
    omega

def type (e : Editor limit) (keys : List Int) : Editor limit where
  selected := e.selected
  text := e.text ++ (entered (limit - e.text.length) keys).map UInt8.ofInt
  fits := by
    have hfits := e.fits
    have hroom : (entered (limit - e.text.length) keys).length ≤ limit - e.text.length :=
      List.length_take_le _ _
    rw [List.length_append, List.length_map]
    omega

def step (e : Editor limit) (frame : Frame) : Editor limit :=
  let e := if frame.mouseDown then { e with selected := frame.hovering } else e
  if e.selected then (if frame.backspace then e.backspace else e).type frame.typed else e

end Editor

/-- The editor a buffer stands for. -/
def WellFormed.editor (h : WellFormed sizeLimit box) : Editor sizeLimit where
  selected := box.selected
  text := box.getText
  fits := by
    have hlen : box.getText.length = box.currentChar.toNat := h.ends.length_contents
    have hle := h.le_limit
    omega

theorem text_editor (h : WellFormed sizeLimit box) : h.editor.text = box.getText := rfl

theorem selected_editor (h : WellFormed sizeLimit box) : h.editor.selected = box.selected := rfl

theorem accepts_iff (h : WellFormed sizeLimit box) :
    box.accepts key ↔ printable key ∧ 0 < sizeLimit - box.getText.length := by
  have hlen : box.getText.length = box.currentChar.toNat := h.ends.length_contents
  have h0 := h.nonneg
  unfold accepts printable
  rw [h.limit, hlen]
  omega

/-- Typing stops at the first key that is no character, or when the buffer is full. -/
theorem getText_typing (h : WellFormed sizeLimit box) (queue : List Int) (key : Int) :
    (TextBox.typing queue key box).getText = box.getText ++
      (entered (sizeLimit - box.getText.length) (key :: queue)).map UInt8.ofInt := by
  induction queue generalizing key box with
  | nil =>
      unfold TextBox.typing
      split
      · rename_i ha
        obtain ⟨hp, hroom⟩ := (accepts_iff h).mp ha
        rw [getText_append h ha, entered_cons_pos [] hp hroom]
        unfold entered
        rw [List.takeWhile_nil, List.take_nil, List.map_cons, List.map_nil]
      · rename_i ha
        rw [entered_cons_neg [] fun hk => ha ((accepts_iff h).mpr hk)]
        exact (List.append_nil _).symm
  | cons next queue ih =>
      unfold TextBox.typing
      split
      · rename_i ha
        obtain ⟨hp, hroom⟩ := (accepts_iff h).mp ha
        have hleft : sizeLimit - (box.getText ++ [UInt8.ofInt key]).length =
            sizeLimit - box.getText.length - 1 := by
          rw [List.length_append]
          rfl
        rw [ih (h.append ha) next, getText_append h ha, hleft,
          entered_cons_pos (next :: queue) hp hroom, List.map_cons, List.append_assoc]
        rfl
      · rename_i ha
        rw [entered_cons_neg _ fun hk => ha ((accepts_iff h).mpr hk)]
        exact (List.append_nil _).symm

theorem typing_selected (queue : List Int) (key : Int) (box : TextBox) :
    (TextBox.typing queue key box).selected = box.selected := by
  induction queue generalizing key box with
  | nil =>
      unfold TextBox.typing
      split <;> rfl
  | cons next queue ih =>
      unfold TextBox.typing
      split
      · exact ih next (box.append key)
      · rfl

theorem editor_typing (h : WellFormed sizeLimit box) (queue : List Int) (key : Int) :
    (h.typing queue key).editor = h.editor.type (key :: queue) :=
  Editor.ext (typing_selected queue key box) (getText_typing h queue key)

theorem editor_erase (h : WellFormed sizeLimit box) : h.erase.editor = h.editor.backspace :=
  Editor.ext rfl (getText_erase h)

theorem editor_congr {box' : TextBox} (h : WellFormed sizeLimit box)
    (h' : WellFormed sizeLimit box') (heq : box = box') : h.editor = h'.editor := by
  subst heq
  rfl

theorem editor_edit (h : WellFormed sizeLimit box) (frame : Frame) :
    (h.edit frame).editor = if box.selected then
      (if frame.backspace then h.editor.backspace else h.editor).type frame.typed
      else h.editor := by
  have htyped : ∀ e : Editor sizeLimit,
      e.type (frame.typed.headD 0 :: frame.typed.tail) = e.type frame.typed := by
    intro e
    unfold Editor.type
    simp only [entered_headD_tail]
  by_cases hsel : box.selected
  · by_cases hback : frame.backspace
    · have hedit : box.edit frame =
          TextBox.typing frame.typed.tail (frame.typed.headD 0) box.erase := by
        unfold TextBox.edit
        rw [if_pos hsel]
        dsimp only
        rw [if_pos hback]
      rw [if_pos hsel, if_pos hback, editor_congr _ (h.erase.typing _ _) hedit,
        editor_typing h.erase, htyped, editor_erase]
    · have hedit : box.edit frame =
          TextBox.typing frame.typed.tail (frame.typed.headD 0) box := by
        unfold TextBox.edit
        rw [if_pos hsel]
        dsimp only
        rw [if_neg hback]
      rw [if_pos hsel, if_neg hback, editor_congr _ (h.typing _ _) hedit, editor_typing, htyped]
  · have hedit : box.edit frame = box := by
      unfold TextBox.edit
      rw [if_neg hsel]
    rw [if_neg hsel]
    exact editor_congr _ h hedit

theorem editor_updateText (h : WellFormed sizeLimit box) (frame : Frame) :
    (h.updateText frame).editor = h.editor.step frame := by
  by_cases hdown : frame.mouseDown
  · have hupdate : box.updateText frame = edit { box with selected := frame.hovering } frame := by
      unfold TextBox.updateText
      rw [if_pos hdown]
    have hselect := h.select frame.hovering
    rw [editor_congr _ (hselect.edit frame) hupdate, editor_edit hselect]
    unfold Editor.step
    rw [if_pos hdown]
    rfl
  · have hupdate : box.updateText frame = box.edit frame := by
      unfold TextBox.updateText
      rw [if_neg hdown]
    rw [editor_congr _ (h.edit frame) hupdate, editor_edit]
    unfold Editor.step
    rw [if_neg hdown]
    rfl

/-- **The buffer refines the editor.** -/
theorem editor_run (h : sizeLimit < 2 ^ 31 - 1) (frames : List Frame) :
    (wellFormed_run h frames).editor = frames.foldl Editor.step (Editor.empty sizeLimit) := by
  have hrun : ∀ (frames : List Frame) (box : TextBox) (h : WellFormed sizeLimit box)
      (h' : WellFormed sizeLimit (frames.foldl TextBox.updateText box)),
      h'.editor = frames.foldl Editor.step h.editor := by
    intro frames
    induction frames with
    | nil => exact fun _ _ _ => rfl
    | cons frame frames ih =>
        intro box h h'
        have hrest := ih _ (h.updateText frame) h'
        rw [editor_updateText] at hrest
        exact hrest
  have hempty : (wellFormed_create h).editor = Editor.empty sizeLimit := by
    have hlen : (create sizeLimit true).getText.length = 0 :=
      (wellFormed_create h).ends.length_contents
    refine Editor.ext (selected_editor _) ?_
    rw [text_editor]
    exact List.length_eq_zero_iff.mp hlen
  rw [← hempty]
  exact hrun frames _ _ _

/-- What is promised of the buffer of a box with room for `sizeLimit` characters. -/
structure Sound (sizeLimit : Int) (box : TextBox) : Prop where
  nonneg : 0 ≤ box.currentChar
  le_limit : box.currentChar ≤ sizeLimit
  /-- The first terminator is at `currentChar`. -/
  stop : box.text[box.currentChar.toNat]? = some 0
  before : ∀ i < box.currentChar.toNat, box.text[i]? ≠ some 0
  length : (box.getText.length : Int) = box.currentChar
  cells : (box.text.length : Int) = sizeLimit + 1
  inside : ∀ i ∈ box.writes, 0 ≤ i ∧ i ≤ sizeLimit

/-- Whatever is selected, typed and erased: `currentChar` is the place of the first
terminator, which is inside the buffer, and so was every write. -/
theorem buffer_invariant (sizeLimit : Int) (frames : List Frame) (h0 : 0 ≤ sizeLimit)
    (h : sizeLimit < 2147483647) : Sound sizeLimit (run sizeLimit true frames) := by
  obtain ⟨n, rfl⟩ := Int.eq_ofNat_of_zero_le h0
  have hbox := wellFormed_run (show n < 2 ^ 31 - 1 by omega) frames
  have hlen : (run n true frames).getText.length = (run n true frames).currentChar.toNat :=
    hbox.ends.length_contents
  have hcells := hbox.cells
  have hnonneg := hbox.nonneg
  refine ⟨hnonneg, hbox.le_limit, hbox.ends.stop, hbox.ends.before, ?_, ?_, hbox.inside⟩
  · omega
  · omega

/-- One frame in which the box is clicked, and a letter typed. -/
def typesA : List Frame := [⟨true, true, false, [65]⟩]

theorem buffer_invariant_typesA : Sound 10 (run 10 true (typesA ++ typesA)) :=
  buffer_invariant 10 (typesA ++ typesA) (by omega) (by omega)

/-- The largest limit leaves no room for the terminator, and neither does a refused `calloc`:
the first key is written where there is no cell. -/
theorem unallocated_unsound :
    ¬ Sound 2147483647 (run 2147483647 true typesA) ∧ ¬ Sound 10 (run 10 false typesA) := by
  constructor
  · intro h
    have htext : (run 2147483647 true typesA).text = [] := by decide +kernel
    have hcells := h.cells
    rw [htext] at hcells
    exact absurd hcells (by decide)
  · intro h
    have htext : (run 10 false typesA).text = [] := by decide +kernel
    have hcells := h.cells
    rw [htext] at hcells
    exact absurd hcells (by decide)

end TextBox

end ScoutComputer
