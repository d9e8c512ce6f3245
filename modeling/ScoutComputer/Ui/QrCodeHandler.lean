import Mathlib.Algebra.Order.Floor.Semiring
import ScoutComputer.Lib.Truncation

/-!
# `QrCodeHandler`

The QR code is painted on a texture of the wanted size, pixel by pixel, whenever it is
drawn and the size has changed. Arithmetic on the size is exact, up to the truncation of
the two arguments of `getModule`.
-/

namespace ScoutComputer

open Truncation

/-- `qrcodegen::QrCode`: the modules by row and column, `true` for dark. -/
structure QrCode where
  size : Nat
  modules : Nat → Nat → Bool

/-- `getModule`. Out of bounds is light. -/
def QrCode.getModule (qr : QrCode) (x y : Int) : Bool :=
  decide (0 ≤ x ∧ x < qr.size ∧ 0 ≤ y ∧ y < qr.size) && qr.modules y.toNat x.toNat

inductive Color where
  | black
  | white
  deriving DecidableEq

/-- A call of `DrawPixel`. -/
structure Pixel where
  x : Nat
  y : Nat
  color : Color

structure QrCodeHandler where
  qrData : QrCode
  /-- What has been painted on the texture since it was loaded. -/
  qrCodeTexture : List Pixel
  previousSize : Rat
  /-- What the `ShouldScale` comes to. -/
  size : Rat

/-- The values of `i` in `for (int i = 0; i < bound; i++)`. -/
def indices (bound : Rat) : List Nat := List.range ⌈bound⌉₊

namespace QrCodeHandler

/-- The constructor. -/
def create (qrData : QrCode) (size : Rat) : QrCodeHandler := ⟨qrData, [], 0, size⟩

/-- The colour the two loops of `draw` give to a pixel. -/
def pixelColor (qrData : QrCode) (size : Rat) (j i : Nat) : Color :=
  if j = 0 ∨ i = 0 then .white
  else if qrData.getModule (trunc (qrData.size * (j / (size - 2))))
      (trunc (qrData.size * (i / (size - 2)))) then .black
  else .white

/-- The two loops of `draw`. -/
def paint (qrData : QrCode) (size : Rat) : List Pixel :=
  (indices (size - 1)).flatMap fun i =>
    (indices (size - 1)).map fun j => ⟨j, i, pixelColor qrData size j i⟩

/-- `draw`, up to putting the texture on the screen. -/
def draw (h : QrCodeHandler) : QrCodeHandler :=
  if h.previousSize ≠ h.size then
    { h with qrCodeTexture := paint h.qrData h.size, previousSize := h.size }
  else h

/-- `setWidth` and `setHeight`, and what a window of another size makes of the size. -/
def setSize (h : QrCodeHandler) (size : Rat) : QrCodeHandler := { h with size := size }

end QrCodeHandler

inductive QrAct where
  | setSize (size : Rat)
  | draw

namespace QrCodeHandler

def act (h : QrCodeHandler) : QrAct → QrCodeHandler
  | .setSize size => h.setSize size
  | .draw => h.draw

/-- What becomes of a handler. -/
def run (qrData : QrCode) (size : Rat) (acts : List QrAct) : QrCodeHandler :=
  acts.foldl act (create qrData size)

end QrCodeHandler

end ScoutComputer
