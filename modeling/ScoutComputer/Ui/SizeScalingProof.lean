import Mathlib.Analysis.Real.Sqrt
import ScoutComputer.Ui.SizeScaling

/-!
# Window scaling has no memory

Whatever the window went through and whichever of the accessors noticed it, the static
members are those that a window of some size would have left behind. So an accessor that
finds the size unchanged has nothing to compute, and one that finds it changed computes
what depends on the new size alone.
-/

namespace ScoutComputer

section
variable {K : Type} [Field K]

/-- The scale of a window of size `w`, against the size at the start. -/
def ratio (sqrt : K → K) (w₀ w : Screen) : Vector3 K :=
  ⟨w.width / w₀.width, w.height / w₀.height, w.diagonal sqrt / w₀.diagonal sqrt⟩

/-- A length in a window of the given scale. -/
def ShouldScale.scaled (v : ShouldScale K) (scale : Vector3 K) : K :=
  if v.shouldScale then
    match v.dependency with
    | .x => v.data * (scale.x * v.scalingMult)
    | .y => v.data * (scale.y * v.scalingMult)
    | .diag => v.data * (scale.z * v.scalingMult)
    | .none => v.data
  else v.data

namespace ScaleAct

/-- What a call returns that knows nothing but the scale of the window. -/
def answer (scale : Vector3 K) : ScaleAct K → Option (ScaleValue K)
  | .resize _ => none
  | .update => some .nothing
  | .getTileSize => some (.tileSize scale)
  | .xMult => some (.number scale.x)
  | .yMult => some (.number scale.y)
  | .diagMult => some (.number scale.z)
  | .getData v => some (.number (v.scaled scale))

/-- The size of the window after an action. -/
def screenAfter (w : Screen) : ScaleAct K → Screen
  | .resize w' => w'
  | _ => w

end ScaleAct

/-- The answers to the calls of a run, each from the size the window has then. -/
def answers (sqrt : K → K) (w₀ : Screen) : Screen → List (ScaleAct K) → List (ScaleValue K)
  | _, [] => []
  | w, a :: acts =>
      (a.answer (ratio sqrt w₀ w)).toList ++ answers sqrt w₀ (a.screenAfter w) acts

namespace SizeScaling

variable {sqrt : K → K} {w₀ w seen : Screen} {s : SizeScaling K}

/-- The members as a window of size `w` leaves them. -/
def latest (sqrt : K → K) (w₀ w : Screen) : SizeScaling K where
  tileSizePx := ratio sqrt w₀ w
  numOfTiles := ⟨w₀.width, w₀.height, w₀.diagonal sqrt⟩
  lastScreenSize := w.size

theorem recompute_latest : (latest sqrt w₀ seen).recompute sqrt w = latest sqrt w₀ w := rfl

theorem size_inj [CharZero K] (h : (w.size : Vector2 K) = seen.size) : w = seen := by
  obtain ⟨hx, hy⟩ := Vector2.mk.inj h
  have hwidth : w.width = seen.width := Int.cast_inj.mp hx
  have hheight : w.height = seen.height := Int.cast_inj.mp hy
  cases w
  cases seen
  dsimp only at hwidth hheight
  rw [hwidth, hheight]

theorem init_eq (hwidth : (w₀.width : K) ≠ 0) (hheight : (w₀.height : K) ≠ 0)
    (hdiag : w₀.diagonal sqrt ≠ 0) : init sqrt w₀ = latest sqrt w₀ w₀ := by
  unfold init latest ratio
  rw [div_self hwidth, div_self hheight, div_self hdiag, div_one, div_one, div_one]

variable [CharZero K] [DecidableEq K]

/-- **The early return agrees with the full computation.** -/
theorem update_latest : (latest sqrt w₀ seen).update sqrt w = latest sqrt w₀ w := by
  unfold update
  split
  · rename_i hsame
    have hw : w = seen := size_inj hsame
    rw [hw]
    rfl
  · exact recompute_latest

theorem getTileSize_latest :
    (latest sqrt w₀ seen).getTileSize sqrt w = (latest sqrt w₀ w, ratio sqrt w₀ w) := by
  unfold getTileSize
  rw [update_latest]
  rfl

theorem xMult_latest :
    (latest sqrt w₀ seen).xMult sqrt w = (latest sqrt w₀ w, (ratio sqrt w₀ w).x) := by
  unfold xMult
  rw [update_latest]
  rfl

theorem yMult_latest :
    (latest sqrt w₀ seen).yMult sqrt w = (latest sqrt w₀ w, (ratio sqrt w₀ w).y) := by
  unfold yMult
  rw [update_latest]
  rfl

theorem diagMult_latest :
    (latest sqrt w₀ seen).diagMult sqrt w = (latest sqrt w₀ w, (ratio sqrt w₀ w).z) := by
  unfold diagMult
  rw [update_latest]
  rfl

theorem getData_latest (v : ShouldScale K) :
    (v.getData sqrt w (latest sqrt w₀ seen)).2 = v.scaled (ratio sqrt w₀ w) ∧
      ∃ seen', (v.getData sqrt w (latest sqrt w₀ seen)).1 = latest sqrt w₀ seen' := by
  unfold ShouldScale.getData ShouldScale.scaled
  cases v.shouldScale with
  | false => exact ⟨rfl, seen, rfl⟩
  | true =>
      rw [if_pos rfl, if_pos rfl]
      cases v.dependency with
      | x =>
          dsimp only
          rw [xMult_latest]
          exact ⟨rfl, w, rfl⟩
      | y =>
          dsimp only
          rw [yMult_latest]
          exact ⟨rfl, w, rfl⟩
      | diag =>
          dsimp only
          rw [diagMult_latest]
          exact ⟨rfl, w, rfl⟩
      | none => exact ⟨rfl, seen, rfl⟩

end SizeScaling

/-! ## Runs -/

namespace ScaleRun

variable {sqrt : K → K} {w₀ seen : Screen} {r : ScaleRun K}

/-- The members are those of a window of some size. -/
def Latest (sqrt : K → K) (w₀ : Screen) (r : ScaleRun K) : Prop :=
  ∃ seen, r.scaling = SizeScaling.latest sqrt w₀ seen

variable [CharZero K] [DecidableEq K]

theorem Latest.step (h : r.Latest sqrt w₀) (a : ScaleAct K) :
    (r.step sqrt a).Latest sqrt w₀ ∧ (r.step sqrt a).screen = a.screenAfter r.screen ∧
      (r.step sqrt a).values = r.values ++ (a.answer (ratio sqrt w₀ r.screen)).toList := by
  obtain ⟨screen, scaling, values⟩ := r
  obtain ⟨seen, hseen⟩ := h
  dsimp only at hseen
  subst hseen
  cases a with
  | resize w => exact ⟨⟨seen, rfl⟩, rfl, (List.append_nil values).symm⟩
  | update => exact ⟨⟨screen, SizeScaling.update_latest⟩, rfl, rfl⟩
  | getTileSize =>
      dsimp only [ScaleRun.step, returned]
      rw [SizeScaling.getTileSize_latest]
      exact ⟨⟨screen, rfl⟩, rfl, rfl⟩
  | xMult =>
      dsimp only [ScaleRun.step, returned]
      rw [SizeScaling.xMult_latest]
      exact ⟨⟨screen, rfl⟩, rfl, rfl⟩
  | yMult =>
      dsimp only [ScaleRun.step, returned]
      rw [SizeScaling.yMult_latest]
      exact ⟨⟨screen, rfl⟩, rfl, rfl⟩
  | diagMult =>
      dsimp only [ScaleRun.step, returned]
      rw [SizeScaling.diagMult_latest]
      exact ⟨⟨screen, rfl⟩, rfl, rfl⟩
  | getData v =>
      have hvalue : (v.getData sqrt screen (SizeScaling.latest sqrt w₀ seen)).2 =
          v.scaled (ratio sqrt w₀ screen) := (SizeScaling.getData_latest v).1
      refine ⟨(SizeScaling.getData_latest v).2, rfl, ?_⟩
      dsimp only [ScaleRun.step, returned]
      rw [hvalue]
      rfl

theorem Latest.run (h : r.Latest sqrt w₀) (acts : List (ScaleAct K)) :
    (acts.foldl (ScaleRun.step sqrt) r).Latest sqrt w₀ ∧
      (acts.foldl (ScaleRun.step sqrt) r).values = r.values ++ answers sqrt w₀ r.screen acts := by
  induction acts generalizing r with
  | nil => exact ⟨h, (List.append_nil _).symm⟩
  | cons a acts ih =>
      obtain ⟨hstep, hscreen, hvalues⟩ := h.step a
      obtain ⟨hrun, hrest⟩ := ih hstep
      refine ⟨hrun, ?_⟩
      rw [List.foldl_cons, hrest, hvalues, hscreen, List.append_assoc]
      rfl

end ScaleRun

end

theorem latest_start {w₀ : Screen} (hwidth : w₀.width ≠ 0) (hheight : w₀.height ≠ 0) :
    (ScaleRun.start Real.sqrt w₀).Latest Real.sqrt w₀ := by
  refine ⟨w₀, SizeScaling.init_eq (Int.cast_ne_zero.mpr hwidth) (Int.cast_ne_zero.mpr hheight) ?_⟩
  refine Real.sqrt_ne_zero'.mpr (Int.cast_pos.mpr ?_)
  have hw := mul_self_pos.mpr hwidth
  have hh := mul_self_nonneg w₀.height
  omega

/--
**Window scaling has no memory.** In every run, each call returns what the size of the
window at that moment gives, `update` leaves what a full computation would, and wherever
two runs have come to the same size, every length comes to the same.
-/
theorem scaling_memoryless (w₀ : Screen) (hwidth : w₀.width ≠ 0) (hheight : w₀.height ≠ 0)
    (acts : List (ScaleAct ℝ)) :
    let r := ScaleRun.run Real.sqrt w₀ acts
    r.values = answers Real.sqrt w₀ w₀ acts ∧
      r.scaling.update Real.sqrt r.screen = r.scaling.recompute Real.sqrt r.screen ∧
      ∀ acts', let r' := ScaleRun.run Real.sqrt w₀ acts'
        r'.screen = r.screen → ∀ v : ShouldScale ℝ,
          (v.getData Real.sqrt r'.screen r'.scaling).2 =
            (v.getData Real.sqrt r.screen r.scaling).2 := by
  have hstart := latest_start hwidth hheight
  obtain ⟨⟨seen, hseen⟩, hvalues⟩ := hstart.run acts
  refine ⟨hvalues, ?_, ?_⟩
  · have hscaling : (ScaleRun.run Real.sqrt w₀ acts).scaling =
        SizeScaling.latest Real.sqrt w₀ seen := hseen
    rw [hscaling, SizeScaling.update_latest, SizeScaling.recompute_latest]
  · intro acts' r' hscreen v
    obtain ⟨⟨seen', hseen'⟩, _⟩ := hstart.run acts'
    have hr' : r'.scaling = SizeScaling.latest Real.sqrt w₀ seen' := hseen'
    have hscaling : (ScaleRun.run Real.sqrt w₀ acts).scaling =
        SizeScaling.latest Real.sqrt w₀ seen := hseen
    rw [hr', hscaling, hscreen, (SizeScaling.getData_latest v).1, (SizeScaling.getData_latest v).1]

/-- The window goes to full screen and back. -/
def thereAndBack : List (ScaleAct ℝ) :=
  [.resize ⟨1920, 1080⟩, .xMult, .resize ⟨800, 600⟩, .resize ⟨1280, 720⟩, .diagMult, .getTileSize]

theorem scaling_memoryless_thereAndBack :
    let r := ScaleRun.run Real.sqrt ⟨1280, 720⟩ thereAndBack
    r.values = answers Real.sqrt ⟨1280, 720⟩ ⟨1280, 720⟩ thereAndBack ∧
      r.scaling.update Real.sqrt r.screen = r.scaling.recompute Real.sqrt r.screen ∧
      ∀ acts', let r' := ScaleRun.run Real.sqrt ⟨1280, 720⟩ acts'
        r'.screen = r.screen → ∀ v : ShouldScale ℝ,
          (v.getData Real.sqrt r'.screen r'.scaling).2 =
            (v.getData Real.sqrt r.screen r.scaling).2 :=
  scaling_memoryless ⟨1280, 720⟩ (by decide) (by decide) thereAndBack

end ScoutComputer
