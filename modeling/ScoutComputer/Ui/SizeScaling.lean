import Mathlib.Algebra.Field.Defs
import Mathlib.Algebra.Ring.Int.Defs

/-!
# `SizeScaling` and `ShouldScale`

The scale of the window is kept in static members, and every accessor first compares the
size of the window with the size they were computed for. Arithmetic is that of a field,
with the square root the diagonal needs.
-/

namespace ScoutComputer

/-- What `GetScreenWidth` and `GetScreenHeight` return. -/
structure Screen where
  width : Int
  height : Int

structure Vector2 (K : Type) where
  x : K
  y : K
  deriving DecidableEq

structure Vector3 (K : Type) where
  x : K
  y : K
  z : K

/-- The static members of `SizeScaling`. -/
structure SizeScaling (K : Type) where
  tileSizePx : Vector3 K
  numOfTiles : Vector3 K
  lastScreenSize : Vector2 K

/-- `SHOULDSCALEDEPENDENCIES`. -/
inductive ScaleDependency where
  | x
  | y
  | diag
  | none
  deriving DecidableEq

structure ShouldScale (K : Type) where
  data : K
  shouldScale : Bool
  dependency : ScaleDependency
  scalingMult : K

section
variable {K : Type} [Field K]

namespace Screen

def size (w : Screen) : Vector2 K := ⟨w.width, w.height⟩

/-- `sqrt((width * width) + (height * height))`. -/
def diagonal (sqrt : K → K) (w : Screen) : K :=
  sqrt ((w.width * w.width + w.height * w.height : Int) : K)

end Screen

namespace SizeScaling

variable (sqrt : K → K) (w : Screen)

def init : SizeScaling K where
  tileSizePx := ⟨1, 1, 1⟩
  numOfTiles := ⟨w.width / 1, w.height / 1, w.diagonal sqrt / 1⟩
  lastScreenSize := w.size

/-- `update` when the size of the window has changed. -/
def recompute (s : SizeScaling K) : SizeScaling K :=
  { s with
    tileSizePx := ⟨w.width / s.numOfTiles.x, w.height / s.numOfTiles.y,
      w.diagonal sqrt / s.numOfTiles.z⟩
    lastScreenSize := w.size }

variable [DecidableEq K]

def update (s : SizeScaling K) : SizeScaling K :=
  if w.size = s.lastScreenSize then { s with lastScreenSize := w.size } else s.recompute sqrt w

def getTileSize (s : SizeScaling K) : SizeScaling K × Vector3 K :=
  let s := s.update sqrt w
  (s, s.tileSizePx)

def xMult (s : SizeScaling K) : SizeScaling K × K :=
  let s := s.update sqrt w
  (s, s.tileSizePx.x)

def yMult (s : SizeScaling K) : SizeScaling K × K :=
  let s := s.update sqrt w
  (s, s.tileSizePx.y)

def diagMult (s : SizeScaling K) : SizeScaling K × K :=
  let s := s.update sqrt w
  (s, s.tileSizePx.z)

end SizeScaling

/-- `ShouldScale::getData`. -/
def ShouldScale.getData [DecidableEq K] (sqrt : K → K) (w : Screen) (v : ShouldScale K)
    (s : SizeScaling K) : SizeScaling K × K :=
  if v.shouldScale then
    match v.dependency with
    | .x =>
        let (s, mult) := s.xMult sqrt w
        (s, v.data * (mult * v.scalingMult))
    | .y =>
        let (s, mult) := s.yMult sqrt w
        (s, v.data * (mult * v.scalingMult))
    | .diag =>
        let (s, mult) := s.diagMult sqrt w
        (s, v.data * (mult * v.scalingMult))
    | .none => (s, v.data)
  else (s, v.data)

end

/-! ## Runs -/

/-- What can happen to the window and to its scale. -/
inductive ScaleAct (K : Type) where
  | resize (w : Screen)
  | update
  | getTileSize
  | xMult
  | yMult
  | diagMult
  | getData (v : ShouldScale K)

/-- What a call returns. -/
inductive ScaleValue (K : Type) where
  | nothing
  | tileSize (v : Vector3 K)
  | number (a : K)

/-- The window, its scale and the values returned so far. -/
structure ScaleRun (K : Type) where
  screen : Screen
  scaling : SizeScaling K
  values : List (ScaleValue K)

section
variable {K : Type} [Field K] [DecidableEq K] (sqrt : K → K)

namespace ScaleRun

def start (w : Screen) : ScaleRun K := ⟨w, SizeScaling.init sqrt w, []⟩

/-- Keep what a call leaves and what it returns. -/
def returned {β : Type} (r : ScaleRun K) (value : β → ScaleValue K) (res : SizeScaling K × β) :
    ScaleRun K :=
  { r with scaling := res.1, values := r.values ++ [value res.2] }

def step (r : ScaleRun K) : ScaleAct K → ScaleRun K
  | .resize w => { r with screen := w }
  | .update => r.returned (fun () => .nothing) (r.scaling.update sqrt r.screen, ())
  | .getTileSize => r.returned .tileSize (r.scaling.getTileSize sqrt r.screen)
  | .xMult => r.returned .number (r.scaling.xMult sqrt r.screen)
  | .yMult => r.returned .number (r.scaling.yMult sqrt r.screen)
  | .diagMult => r.returned .number (r.scaling.diagMult sqrt r.screen)
  | .getData v => r.returned .number (v.getData sqrt r.screen r.scaling)

/-- The run from `init` with a window of size `w`. -/
def run (w : Screen) (acts : List (ScaleAct K)) : ScaleRun K := acts.foldl (step sqrt) (start sqrt w)

end ScaleRun

end

end ScoutComputer
