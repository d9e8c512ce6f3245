import ScoutComputer.Lib.Resample
import ScoutComputer.Ui.QrCodeHandler

/-!
# The drawn QR code shows every module

The pixels behind the first row and column are mapped to modules by stretching the code
over the size less two. The first module loses a pixel to the border, which leaves it at
least one and no two modules more than one pixel apart.
-/

namespace ScoutComputer

open Resample Truncation

theorem mem_indices {bound : Rat} {i : Nat} : i ∈ indices bound ↔ (i : Rat) < bound := by
  unfold indices
  rw [List.mem_range, Nat.lt_ceil]

namespace QrCodeHandler

variable {qr : QrCode} {size : Rat}

/-- The column a pixel is mapped to, and the row; the two maps are the same. -/
def place (qr : QrCode) (size : Rat) (j : Nat) : Int := trunc (qr.size * (j / (size - 2)))

/-- The pixels of a row, or of a column, that are mapped to module `k`. -/
def moduleRun (qr : QrCode) (size : Rat) (k : Nat) : List Nat :=
  (indices (size - 1)).filter fun j => decide (1 ≤ j ∧ place qr size j = k)

/-- What a painted code has to show. -/
structure ShowsAll (qr : QrCode) (size : Rat) (pixels : List Pixel) : Prop where
  /-- The pixels of a square as large as the size, less its last row and column, are painted. -/
  painted : ∀ x y : Nat, (∃ p ∈ pixels, p.x = x ∧ p.y = y) ↔
    (x : Rat) < size - 1 ∧ (y : Rat) < size - 1
  /-- A pixel that is mapped to a module has its colour. -/
  module : ∀ p ∈ pixels, ∀ c < qr.size, ∀ r < qr.size, 1 ≤ p.x → 1 ≤ p.y →
    place qr size p.x = c → place qr size p.y = r →
      (p.color = .black ↔ qr.modules r c = true)
  /-- Every other pixel is light. -/
  light : ∀ p ∈ pixels, p.x = 0 ∨ p.y = 0 ∨ (qr.size : Int) ≤ place qr size p.x ∨
    (qr.size : Int) ≤ place qr size p.y → p.color = .white
  mono : ∀ j j', j ≤ j' → place qr size j ≤ place qr size j'
  covers : ∀ k < qr.size, ∃ j : Nat, 1 ≤ j ∧ (j : Rat) < size - 1 ∧ place qr size j = k
  even : ∀ k < qr.size, ∀ k' < qr.size,
    (moduleRun qr size k).length ≤ (moduleRun qr size k').length + 1

/-! ## The map -/

/-- The loop does not stop before the last module's last pixel. -/
theorem first_le_bound {k : Nat} (hn : 0 < qr.size) (hs : 0 < size - 2) (hk : k ≤ qr.size) :
    first qr.size (size - 2) k ≤ ⌈size - 1⌉₊ :=
  (first_le hn hs.le hk).trans (Nat.ceil_mono (by linarith))

theorem moduleRun_length {k : Nat} (hk : k < qr.size) (hs : 0 < size - 2) :
    (moduleRun qr size k).length =
      first qr.size (size - 2) (k + 1) - max 1 (first qr.size (size - 2) k) := by
  have hn : 0 < qr.size := by omega
  have hp : ∀ j, (decide (1 ≤ j ∧ place qr size j = k)) = true ↔
      max 1 (first qr.size (size - 2) k) ≤ j ∧ j < first qr.size (size - 2) (k + 1) := by
    intro j
    have hcell := cell_eq_iff hn hs (j := j) (k := k)
    have hplace : place qr size j = cell qr.size (size - 2) j := rfl
    rw [decide_eq_true_iff, hplace, hcell]
    omega
  unfold moduleRun indices
  rw [length_filter_between _ _ _ _ hp]
  have hlast : first qr.size (size - 2) (k + 1) ≤ ⌈size - 1⌉₊ := first_le_bound hn hs hk
  have hfirst := first_le_bound hn hs hk.le
  have hpos : 0 < ⌈size - 1⌉₊ := Nat.ceil_pos.mpr (by linarith)
  omega

theorem covers (hsize : (qr.size : Rat) < size - 2) {k : Nat} (hk : k < qr.size) :
    ∃ j : Nat, 1 ≤ j ∧ (j : Rat) < size - 1 ∧ place qr size j = k := by
  have hn : 0 < qr.size := by omega
  have hs : 0 < size - 2 := (Nat.cast_nonneg qr.size).trans_lt hsize
  have hone := one_lt_first_succ hn hsize k
  have hlt := first_lt_succ hn hsize k
  have hlast : first qr.size (size - 2) (k + 1) ≤ ⌈size - 1⌉₊ := first_le_bound hn hs hk
  refine ⟨max 1 (first qr.size (size - 2) k), le_max_left _ _, ?_, ?_⟩
  · exact Nat.lt_ceil.mp (by omega)
  · exact (cell_eq_iff hn hs).mpr ⟨le_max_right _ _, by omega⟩

/-- A module is as long as fits, rounded up, or one less. -/
theorem moduleRun_bounds (hsize : (qr.size : Rat) < size - 2) {k : Nat} (hk : k < qr.size) :
    (moduleRun qr size k).length ≤ ⌈(size - 2) / qr.size⌉₊ ∧
      ⌈(size - 2) / qr.size⌉₊ ≤ (moduleRun qr size k).length + 1 := by
  have hn : 0 < qr.size := by omega
  have hs : 0 < size - 2 := (Nat.cast_nonneg qr.size).trans_lt hsize
  rw [moduleRun_length hk hs]
  obtain ⟨hlo, hhi⟩ := first_succ_bounds (n := qr.size) k hs.le
  have hround : ⌈(size - 2) / qr.size⌉₊ ≤ ⌊(size - 2) / qr.size⌋₊ + 1 :=
    Nat.ceil_le_floor_add_one _
  cases k with
  | zero =>
      rw [first_zero] at hhi ⊢
      rw [first_one]
      omega
  | succ k =>
      have hone := one_lt_first_succ hn hsize k
      omega

/-! ## The picture -/

theorem mem_paint {p : Pixel} : p ∈ paint qr size ↔
    (p.x : Rat) < size - 1 ∧ (p.y : Rat) < size - 1 ∧ p.color = pixelColor qr size p.x p.y := by
  obtain ⟨x, y, color⟩ := p
  unfold paint
  simp only [List.mem_flatMap, List.mem_map, mem_indices, Pixel.mk.injEq]
  constructor
  · intro ⟨i, hi, j, hj, hx, hy, hc⟩
    subst hx
    subst hy
    exact ⟨hj, hi, hc.symm⟩
  · intro ⟨hx, hy, hc⟩
    exact ⟨y, hy, x, hx, rfl, rfl, hc.symm⟩

theorem getModule_eq {c r : Nat} (hc : c < qr.size) (hr : r < qr.size) :
    qr.getModule c r = qr.modules r c := by
  have hin : (0 : Int) ≤ c ∧ (c : Int) < qr.size ∧ (0 : Int) ≤ r ∧ (r : Int) < qr.size := by omega
  unfold QrCode.getModule
  rw [decide_eq_true hin, Bool.true_and, Int.toNat_natCast, Int.toNat_natCast]

theorem getModule_beyond {x y : Int} (h : (qr.size : Int) ≤ x ∨ (qr.size : Int) ≤ y) :
    qr.getModule x y = false := by
  have hout : ¬ (0 ≤ x ∧ x < qr.size ∧ 0 ≤ y ∧ y < qr.size) := by omega
  unfold QrCode.getModule
  rw [decide_eq_false hout, Bool.false_and]

theorem pixelColor_place {j i : Nat} (hj : 1 ≤ j) (hi : 1 ≤ i) : pixelColor qr size j i =
    if qr.getModule (place qr size j) (place qr size i) then .black else .white := by
  unfold pixelColor
  rw [if_neg (by omega)]
  rfl

theorem showsAll_paint (hsize : (qr.size : Rat) < size - 2) :
    ShowsAll qr size (paint qr size) where
  painted x y := by
    constructor
    · intro ⟨p, hp, hx, hy⟩
      obtain ⟨hpx, hpy, _⟩ := mem_paint.mp hp
      rw [← hx, ← hy]
      exact ⟨hpx, hpy⟩
    · intro ⟨hx, hy⟩
      exact ⟨⟨x, y, pixelColor qr size x y⟩, mem_paint.mpr ⟨hx, hy, rfl⟩, rfl, rfl⟩
  module p hp c hc r hr hx hy hpc hpr := by
    rw [(mem_paint.mp hp).2.2, pixelColor_place hx hy, hpc, hpr, getModule_eq hc hr]
    cases qr.modules r c with
    | true => simp
    | false => simp
  light p hp hlight := by
    rw [(mem_paint.mp hp).2.2]
    by_cases hedge : p.x = 0 ∨ p.y = 0
    · unfold pixelColor
      rw [if_pos hedge]
    · have hbeyond : (qr.size : Int) ≤ place qr size p.x ∨ (qr.size : Int) ≤ place qr size p.y := by
        rcases hlight with h | h | h
        · exact absurd (Or.inl h) hedge
        · exact absurd (Or.inr h) hedge
        · exact h
      rw [pixelColor_place (by omega) (by omega), getModule_beyond hbeyond]
      rfl
  mono _ _ h := cell_mono ((Nat.cast_nonneg qr.size).trans_lt hsize) h
  covers _ hk := covers hsize hk
  even _ hk _ hk' := (moduleRun_bounds hsize hk).1.trans (moduleRun_bounds hsize hk').2

/-! ## The handler -/

/-- The texture shows the code at the size it was painted for. -/
def UpToDate (qr : QrCode) (h : QrCodeHandler) : Prop :=
  h.qrData = qr ∧ (h.previousSize = 0 ∨ h.qrCodeTexture = paint qr h.previousSize)

theorem UpToDate.draw {h : QrCodeHandler} (hu : UpToDate qr h) : UpToDate qr h.draw := by
  unfold QrCodeHandler.draw
  split
  · exact ⟨hu.1, Or.inr (by rw [hu.1])⟩
  · exact hu

theorem upToDate_run (start : Rat) (acts : List QrAct) : UpToDate qr (run qr start acts) := by
  have hstep : ∀ (h : QrCodeHandler) (acts : List QrAct), UpToDate qr h →
      UpToDate qr (acts.foldl act h) := by
    intro h acts hu
    induction acts generalizing h with
    | nil => exact hu
    | cons a acts ih =>
        cases a with
        | setSize size => exact ih _ ⟨hu.1, hu.2⟩
        | draw => exact ih _ hu.draw
  exact hstep _ acts ⟨rfl, Or.inl rfl⟩

theorem texture_draw {h : QrCodeHandler} (hu : UpToDate qr h) (hsize : h.size ≠ 0) :
    h.draw.qrCodeTexture = paint qr h.size := by
  unfold QrCodeHandler.draw
  split
  · exact congrArg (paint · h.size) hu.1
  · rename_i hsame
    have heq : h.previousSize = h.size := not_not.mp hsame
    rcases hu.2 with hzero | htexture
    · exact absurd (heq.symm.trans hzero) hsize
    · rw [htexture, heq]

/--
**The drawn QR code shows every module**, whatever sizes it was drawn at before, as long
as a module is wider than a pixel.
-/
theorem draw_showsAll (qr : QrCode) (start : Rat) (acts : List QrAct)
    (hsize : (qr.size : Rat) < (run qr start acts).size - 2) :
    ShowsAll qr (run qr start acts).size (run qr start acts).draw.qrCodeTexture := by
  have hpos : (run qr start acts).size ≠ 0 := by
    have := (Nat.cast_nonneg qr.size : (0 : Rat) ≤ qr.size)
    linarith
  rw [texture_draw (upToDate_run start acts) hpos]
  exact showsAll_paint hsize

/-- A code of 21 by 21 modules, drawn at 300 pixels and then in a smaller window. -/
theorem draw_showsAll_smaller :
    let qr : QrCode := ⟨21, fun y x => (x + y) % 2 == 0⟩
    let h := run qr 300 [.draw, .setSize (401 / 2)]
    ShowsAll qr h.size h.draw.qrCodeTexture :=
  draw_showsAll ⟨21, fun y x => (x + y) % 2 == 0⟩ 300 [.draw, .setSize (401 / 2)]
    (by decide +kernel)

end QrCodeHandler

end ScoutComputer
