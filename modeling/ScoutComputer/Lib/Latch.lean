import Mathlib.Data.List.Basic
import Mathlib.Tactic.Common

/-!
# Rising edges

A latch remembers the last sample it took of a signal and reports a sample that is high
when the one before it was low. It need not take a sample at every step.
-/

namespace Latch

/-- What a latch reports, step by step, on the samples it takes; it last saw `last`. -/
def rises : Bool → List (Option Bool) → List Bool
  | _, [] => []
  | last, none :: cs => false :: rises last cs
  | _, some false :: cs => false :: rises false cs
  | last, some true :: cs => (!last) :: rises true cs

variable {b : Bool} {l : List (Option Bool)} {i j k : Nat}

@[simp] theorem rises_none : rises b (none :: l) = false :: rises b l := rfl

@[simp] theorem rises_some (c : Bool) :
    rises b (some c :: l) = (c && !b) :: rises c l := by
  cases c <;> rfl

/-- A report means that the sample is high. -/
theorem high_of_rise (h : (rises b l)[k]? = some true) : l[k]? = some (some true) := by
  induction l generalizing b k with
  | nil => simp [rises] at h
  | cons c l ih =>
      cases k with
      | zero => rcases c with _ | _ | _ <;> simp_all
      | succ k =>
          cases c with
          | none => exact ih h
          | some c =>
              rw [rises_some] at h
              exact ih h

/-- A latch that is set reports nothing before it has seen a low sample. -/
theorem exists_low_of_rise (h : (rises true l)[j]? = some true) :
    ∃ k < j, l[k]? = some (some false) := by
  induction l generalizing j with
  | nil => simp [rises] at h
  | cons c l ih =>
      rcases c with _ | _ | _
      · cases j with
        | zero => simp at h
        | succ j =>
            obtain ⟨k, hk, hlow⟩ := ih h
            exact ⟨k + 1, by omega, hlow⟩
      · cases j with
        | zero => simp at h
        | succ j => exact ⟨0, by omega, rfl⟩
      · cases j with
        | zero => simp at h
        | succ j =>
            obtain ⟨k, hk, hlow⟩ := ih h
            exact ⟨k + 1, by omega, hlow⟩

/-- **Between two reports there is a low sample.** -/
theorem exists_low_between (hij : i < j) (hi : (rises b l)[i]? = some true)
    (hj : (rises b l)[j]? = some true) : ∃ k, i < k ∧ k < j ∧ l[k]? = some (some false) := by
  induction l generalizing b i j with
  | nil => simp [rises] at hi
  | cons c l ih =>
      obtain ⟨j, rfl⟩ : ∃ j', j = j' + 1 := ⟨j - 1, by omega⟩
      cases i with
      | zero =>
          have hc : c = some true := by simpa using high_of_rise hi
          subst hc
          obtain ⟨k, hk, hlow⟩ := exists_low_of_rise (l := l) hj
          exact ⟨k + 1, by omega, by omega, hlow⟩
      | succ i =>
          have hrest : ∃ b', (rises b' l)[i]? = some true ∧
              (rises b' l)[j]? = some true := by
            cases c with
            | none => exact ⟨b, hi, hj⟩
            | some c =>
                rw [rises_some] at hi hj
                exact ⟨c, hi, hj⟩
          obtain ⟨b', hi', hj'⟩ := hrest
          obtain ⟨k, hik, hkj, hlow⟩ := ih (by omega) hi' hj'
          exact ⟨k + 1, by omega, by omega, hlow⟩

/-- A latch that is not set reports a high sample or one before it. -/
theorem exists_rise_of_high (h : l[k]? = some (some true)) :
    ∃ j ≤ k, (rises false l)[j]? = some true := by
  induction l generalizing k with
  | nil => simp at h
  | cons c l ih =>
      rcases c with _ | _ | _
      · cases k with
        | zero => simp at h
        | succ k =>
            obtain ⟨j, hj, hrise⟩ := ih h
            exact ⟨j + 1, by omega, hrise⟩
      · cases k with
        | zero => simp at h
        | succ k =>
            obtain ⟨j, hj, hrise⟩ := ih h
            exact ⟨j + 1, by omega, hrise⟩
      · exact ⟨0, by omega, rfl⟩

/-- **Between a low sample and a high one there is a report.** -/
theorem exists_rise_between (hik : i < k) (hi : l[i]? = some (some false))
    (hk : l[k]? = some (some true)) : ∃ j, i < j ∧ j ≤ k ∧ (rises b l)[j]? = some true := by
  induction l generalizing b i k with
  | nil => simp at hi
  | cons c l ih =>
      obtain ⟨k, rfl⟩ : ∃ k', k = k' + 1 := ⟨k - 1, by omega⟩
      cases i with
      | zero =>
          have hc : c = some false := by simpa using hi
          subst hc
          obtain ⟨j, hj, hrise⟩ := exists_rise_of_high (l := l) hk
          exact ⟨j + 1, by omega, by omega, hrise⟩
      | succ i =>
          cases c with
          | none =>
              obtain ⟨j, hij, hjk, hrise⟩ := ih (b := b) (by omega) hi hk
              exact ⟨j + 1, by omega, by omega, hrise⟩
          | some c =>
              obtain ⟨j, hij, hjk, hrise⟩ := ih (b := c) (by omega) hi hk
              exact ⟨j + 1, by omega, by omega, by rw [rises_some]; exact hrise⟩

end Latch
