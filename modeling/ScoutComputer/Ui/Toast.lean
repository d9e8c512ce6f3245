import Mathlib.Algebra.Order.Ring.Rat
import ScoutComputer.Machine

/-!
# `Toast` and `toastHandler`

Toasts are added to a queue, and `update`, called once in every frame, shows one after the
other. Every call of `GetTime` returns a reading of its own, so two calls of `isDone` in
one `update` can differ. A reading and a deadline are doubles, and `round` is what the sum
of the two is stored as.
-/

namespace ScoutComputer

/-- `TOASTLENGTHS`. -/
inductive ToastLength where
  | null
  | short
  | normal
  | long
  deriving DecidableEq

/-- How long a toast is shown. -/
def ToastLength.seconds : ToastLength → Rat
  | null => -1
  | short => 1
  | normal => 2
  | long => 4

/-- What the scheduler sees of a `Toast`. `setTime` is anything until `init` sets it. -/
structure Toast where
  message : List Byte
  length : ToastLength
  setTime : Rat
  deriving DecidableEq

namespace Toast

/-- `isDone`, by the reading its `GetTime` returns. -/
def isDone (toast : Toast) (now : Rat) : Bool := decide (toast.setTime ≤ now)

/-- `init`, by its first reading. The other two are for the animation. -/
def init (round : Rat → Rat) (toast : Toast) (now : Rat) : Toast :=
  { toast with setTime := round (now + toast.length.seconds) }

end Toast

/-- The readings that the calls of `GetTime` return, in order. -/
abbrev Clock : Type := Nat → Rat

/-- A toast that is no longer current. -/
structure Shown where
  toast : Toast
  /-- The reading `init` set its time by. -/
  start : Rat
  /-- The reading it was found to be done by. -/
  stop : Rat
  deriving DecidableEq

/-- The static members of `toastHandler`, with what has been shown. -/
structure ToastHandler where
  toastQueue : List Toast
  currentToast : Toast
  /-- How often `GetTime` has been called. -/
  calls : Nat
  past : List Shown
  /-- The toast taken last, and the reading it was started by. -/
  started : Option (Toast × Rat)
  /-- The toast that the last `update` drew. -/
  drew : Option Toast
  deriving DecidableEq

inductive ToastAct where
  | add (toast : Toast)
  | update

namespace ToastHandler

/-- `currentToast` before anything is added; static memory starts out as zero. -/
def noToast : Toast := ⟨[], .null, 0⟩

def start : ToastHandler := ⟨[], noToast, 0, [], none, none⟩

def add (h : ToastHandler) (toast : Toast) : ToastHandler :=
  { h with toastQueue := h.toastQueue ++ [toast] }

/-- Record that `front` takes the place of the current toast. -/
def history (h : ToastHandler) (front : Toast) (stop start : Rat) : ToastHandler :=
  { h with
    past := h.past ++ h.started.toList.map fun s => ⟨s.1, s.2, stop⟩
    started := some (front, start) }

section
variable (round : Rat → Rat) (clock : Clock)

/--
`update` behind its first `if`. `front()` of an empty queue is undefined. `init` reads the
clock three times and `draw` once, all but the first time for the animation.
-/
def showNext (h : ToastHandler) : Option ToastHandler :=
  if h.currentToast.isDone (clock h.calls) then
    match h.toastQueue with
    | [] => none
    | front :: rest =>
        some { h.history front (clock h.calls) (clock (h.calls + 1)) with
          toastQueue := rest
          currentToast := front.init round (clock (h.calls + 1))
          calls := h.calls + 5
          drew := some (front.init round (clock (h.calls + 1))) }
  else some { h with calls := h.calls + 2, drew := some h.currentToast }

/-- `update`. Its first `if` calls `isDone` only when the queue is empty. -/
def update (h : ToastHandler) : Option ToastHandler :=
  if h.toastQueue.length = 0 then
    if h.currentToast.isDone (clock h.calls) then
      some { h with calls := h.calls + 1, drew := none }
    else showNext round clock { h with calls := h.calls + 1 }
  else showNext round clock h

def act (h : ToastHandler) : ToastAct → Option ToastHandler
  | .add toast => some (h.add toast)
  | .update => h.update round clock

/-- The calls of a run, from the start of the program. -/
def run (acts : List ToastAct) : Option ToastHandler := acts.foldlM (act round clock) start

end

/-- The toasts that have become current, in order. -/
def taken (h : ToastHandler) : List Toast :=
  h.past.map Shown.toast ++ h.started.toList.map Prod.fst

end ToastHandler

end ScoutComputer
