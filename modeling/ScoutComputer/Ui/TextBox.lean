import ScoutComputer.Machine

/-!
# `TextBox`

The characters typed into a selected box are appended to a buffer of fixed size, and
backspace takes the last one away. The text drawn and returned is what stands in front of
the terminator.
-/

namespace ScoutComputer

/-- What `updateText` finds in one frame. -/
structure Frame where
  mouseDown : Bool
  hovering : Bool
  backspace : Bool
  /-- The characters `GetCharPressed` returns, before it returns 0. -/
  typed : List Int

structure TextBox where
  /-- The cells allocated by the constructor; there are none behind a NULL pointer. -/
  text : List Byte
  selected : Bool
  sizeLimit : Int
  currentChar : Int
  /-- The indices written to so far. -/
  writes : List Int

namespace TextBox

/-- `calloc(n, 1)`. It can be refused, and no request of half the address space is granted. -/
def calloc (n : Nat) (granted : Bool) : List Byte :=
  if granted ∧ n < 2 ^ 63 then List.replicate n 0 else []

/-- The constructor. `sizeLimit + 1` is an `int`, and nobody looks at what `calloc` returns. -/
def create (sizeLimit : Int) (granted : Bool) : TextBox :=
  ⟨calloc (toSizeT (toInt32 (sizeLimit + 1))) granted, false, sizeLimit, 0, []⟩

/-- `text[i] = c`. -/
def write (box : TextBox) (i : Int) (c : Byte) : TextBox :=
  { box with text := box.text.set i.toNat c, writes := box.writes ++ [i] }

/-- What backspace does. -/
def erase (box : TextBox) : TextBox :=
  let currentChar := if box.currentChar - 1 < 0 then 0 else box.currentChar - 1
  { box with currentChar := currentChar }.write currentChar 0

/-- The condition of the loop. -/
def accepts (box : TextBox) (key : Int) : Prop :=
  (key > 31 ∧ key < 123) ∧ box.currentChar < box.sizeLimit

instance (box : TextBox) (key : Int) : Decidable (box.accepts key) := by
  unfold accepts
  infer_instance

/-- The body of the loop, up to the next `GetCharPressed`. -/
def append (box : TextBox) (key : Int) : TextBox :=
  let box := (box.write box.currentChar (UInt8.ofInt key)).write (box.currentChar + 1) 0
  { box with currentChar := box.currentChar + 1 }

/-- The loop, with `key` in hand. `GetCharPressed` of an empty queue returns 0, which ends it. -/
def typing : List Int → Int → TextBox → TextBox
  | [], key, box => if box.accepts key then box.append key else box
  | next :: queue, key, box => if box.accepts key then typing queue next (box.append key) else box

/-- `updateText` behind the selection. -/
def edit (box : TextBox) (frame : Frame) : TextBox :=
  if box.selected then
    let key := frame.typed.headD 0
    let box := if frame.backspace then box.erase else box
    typing frame.typed.tail key box
  else box

def updateText (box : TextBox) (frame : Frame) : TextBox :=
  (if frame.mouseDown then { box with selected := frame.hovering } else box).edit frame

def getText (box : TextBox) : List Byte := cStr box.text

/-- What becomes of a box, frame by frame. -/
def run (sizeLimit : Int) (granted : Bool) (frames : List Frame) : TextBox :=
  frames.foldl updateText (create sizeLimit granted)

end TextBox

end ScoutComputer
