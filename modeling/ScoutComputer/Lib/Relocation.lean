import Mathlib.Data.List.Basic
import Mathlib.Tactic.Common

/-!
# Vectors that move

A vector keeps its elements in one buffer, and moves them to a new one when they no longer
fit. A pointer is a buffer and an index into it. It is good as long as the vector neither
moves nor drops the element, and with enough room in advance it does not move.
-/

namespace Relocation

/-- Buffers are numbered, so that none is used twice. -/
structure Vec (α : Type*) where
  buf : Nat
  capacity : Nat
  items : List α
  fits : items.length ≤ capacity

abbrev Ptr : Type := Nat × Nat

namespace Vec

variable {α : Type*}

def empty : Vec α := ⟨0, 0, [], Nat.le_refl 0⟩

/-- The elements go, the buffer stays. -/
def clear (v : Vec α) : Vec α := { v with items := [], fits := Nat.zero_le _ }

/-- `room` is how much is allocated where so many elements have to fit. -/
def reserve (v : Vec α) (room : Nat → Nat) (n : Nat) : Vec α :=
  if h : n ≤ v.capacity then v
  else
    { buf := v.buf + 1
      capacity := max (room n) n
      items := v.items
      fits := by
        have hfits := v.fits
        omega }

def emplaceBack (v : Vec α) (room : Nat → Nat) (a : α) : Vec α :=
  if h : v.items.length < v.capacity then
    { v with
      items := v.items ++ [a]
      fits := by
        rw [List.length_append, List.length_singleton]
        omega }
  else
    { buf := v.buf + 1
      capacity := max (room (v.items.length + 1)) (v.items.length + 1)
      items := v.items ++ [a]
      fits := by
        rw [List.length_append, List.length_singleton]
        omega }

/-- The address of an element, if there is one. -/
def pointer (v : Vec α) (i : Nat) : Option Ptr :=
  if i < v.items.length then some (v.buf, i) else none

def deref (v : Vec α) (p : Ptr) : Option α := if p.1 = v.buf then v.items[p.2]? else none

variable {v : Vec α} {a : α} {room : Nat → Nat} {n i : Nat} {p : Ptr}

@[simp] theorem clear_items (v : Vec α) : v.clear.items = [] := rfl

@[simp] theorem reserve_items : (v.reserve room n).items = v.items := by
  unfold reserve
  split <;> rfl

theorem le_capacity_reserve : n ≤ (v.reserve room n).capacity := by
  unfold reserve
  split
  · assumption
  · exact Nat.le_max_right _ _

@[simp] theorem emplaceBack_items : (v.emplaceBack room a).items = v.items ++ [a] := by
  unfold emplaceBack
  split <;> rfl

/-- An element that fits does not make the vector move. -/
theorem emplaceBack_stays (room : Nat → Nat) (a : α) (h : v.items.length < v.capacity) :
    (v.emplaceBack room a).buf = v.buf ∧ (v.emplaceBack room a).capacity = v.capacity := by
  unfold emplaceBack
  rw [dif_pos h]
  exact ⟨rfl, rfl⟩

/-- Pointers stay good when an element fits. -/
theorem deref_emplaceBack {x : α} (h : v.items.length < v.capacity) (hp : v.deref p = some x) :
    (v.emplaceBack room a).deref p = some x := by
  unfold deref at hp ⊢
  rw [(emplaceBack_stays room a h).1, emplaceBack_items]
  split at hp
  · rename_i hbuf
    rw [if_pos hbuf, List.getElem?_append_left (List.getElem?_eq_some_iff.mp hp).1]
    exact hp
  · exact absurd hp (by simp)

theorem pointer_eq_some (h : i < v.items.length) : v.pointer i = some (v.buf, i) := if_pos h

theorem deref_pointer : v.deref (v.buf, i) = v.items[i]? := if_pos rfl

end Vec

/-- The pointers lead to the elements of the vector, one after the other. -/
def Lists {α : Type*} (v : Vec α) (ps : List Ptr) : Prop := ps.map v.deref = v.items.map some

variable {α : Type*} {v : Vec α} {ps : List Ptr}

/-- A vector that was cleared, with room made in it. -/
theorem lists_reserve (v : Vec α) (room : Nat → Nat) (n : Nat) : Lists (v.clear.reserve room n) [] := by
  unfold Lists
  rw [Vec.reserve_items]
  rfl

/-- **One more element**, with its pointer, where there is room. -/
theorem Lists.push (h : Lists v ps) (room : Nat → Nat) (a : α) (hroom : v.items.length < v.capacity) :
    Lists (v.emplaceBack room a) (ps ++ [(v.buf, v.items.length)]) := by
  unfold Lists at h ⊢
  have hold : ps.map (v.emplaceBack room a).deref = ps.map v.deref := by
    refine List.map_congr_left fun p hp => ?_
    have hmem : v.deref p ∈ v.items.map some := h ▸ List.mem_map_of_mem hp
    obtain ⟨x, -, hx⟩ := List.mem_map.mp hmem
    rw [← hx, Vec.deref_emplaceBack hroom hx.symm]
  have hnew : (v.emplaceBack room a).deref (v.buf, v.items.length) = some a := by
    rw [← (Vec.emplaceBack_stays room a hroom).1, Vec.deref_pointer,
      Vec.emplaceBack_items, List.getElem?_concat_length]
  rw [List.map_append, hold, h, List.map_singleton, hnew, Vec.emplaceBack_items, List.map_append]
  rfl

end Relocation
