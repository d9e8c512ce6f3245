import Mathlib.Data.List.TakeWhile

/-!
# Terminated buffers

A buffer of fixed size holds a shorter text: the cells in front of the first one with the
terminator.
-/

namespace Terminated

variable {α : Type*}

/-- Cell `n` is the first one with the terminator. -/
structure EndsAt (z : α) (cells : List α) (n : Nat) : Prop where
  stop : cells[n]? = some z
  before : ∀ i < n, cells[i]? ≠ some z

variable {z c : α} {cells : List α} {n m : Nat}

theorem EndsAt.lt_length (h : EndsAt z cells n) : n < cells.length :=
  (List.getElem?_eq_some_iff.mp h.stop).1

/-- A terminator written into the text cuts it off. -/
theorem EndsAt.cut (h : EndsAt z cells n) (hm : m ≤ n) : EndsAt z (cells.set m z) m where
  stop := by
    rw [List.getElem?_set_self (hm.trans_lt h.lt_length)]
  before i hi := by
    rw [List.getElem?_set_ne (by omega)]
    exact h.before i (by omega)

/-- A cell and a new terminator behind it make the text longer. -/
theorem EndsAt.push (h : EndsAt z cells n) (hc : c ≠ z) (hn : n + 1 < cells.length) :
    EndsAt z ((cells.set n c).set (n + 1) z) (n + 1) where
  stop := by
    rw [List.getElem?_set_self (by rw [List.length_set]; exact hn)]
  before i hi := by
    rw [List.getElem?_set_ne (by omega)]
    rcases Nat.lt_succ_iff_lt_or_eq.mp hi with hlt | rfl
    · rw [List.getElem?_set_ne (by omega)]
      exact h.before i hlt
    · rw [List.getElem?_set_self h.lt_length]
      exact fun heq => hc (Option.some.inj heq)

/-! ## The text in a buffer -/

variable [DecidableEq α]

def contents (z : α) (cells : List α) : List α := cells.takeWhile (· ≠ z)

theorem EndsAt.contents_eq (h : EndsAt z cells n) : contents z cells = cells.take n := by
  unfold contents
  induction cells generalizing n with
  | nil => exact absurd h.lt_length (by simp)
  | cons d cells ih =>
      cases n with
      | zero =>
          have hd : d = z := Option.some.inj h.stop
          simp [hd]
      | succ n =>
          have hd : d ≠ z := fun hd => h.before 0 (Nat.succ_pos n) (congrArg some hd)
          have hrest : EndsAt z cells n :=
            ⟨h.stop, fun i hi => h.before (i + 1) (Nat.succ_lt_succ hi)⟩
          rw [List.takeWhile_cons, if_pos (by simpa using hd), ih hrest, List.take_succ_cons]

/-- The text is as long as the place of the terminator says. -/
theorem EndsAt.length_contents (h : EndsAt z cells n) : (contents z cells).length = n := by
  rw [h.contents_eq, List.length_take, Nat.min_eq_left h.lt_length.le]

theorem EndsAt.contents_cut (h : EndsAt z cells n) (hm : m ≤ n) :
    contents z (cells.set m z) = (contents z cells).take m := by
  rw [(h.cut hm).contents_eq, h.contents_eq, List.take_set_of_le (le_refl m), List.take_take,
    Nat.min_eq_left hm]

theorem EndsAt.contents_push (h : EndsAt z cells n) (hc : c ≠ z) (hn : n + 1 < cells.length) :
    contents z ((cells.set n c).set (n + 1) z) = contents z cells ++ [c] := by
  rw [(h.push hc hn).contents_eq, h.contents_eq, List.take_set_of_le (le_refl (n + 1)),
    List.take_add_one, List.take_set_of_le (le_refl n), List.getElem?_set_self h.lt_length]
  rfl

end Terminated
