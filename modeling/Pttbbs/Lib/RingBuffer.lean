/-
Memory seen as an array of cells, and rings of cells in it.

Cells are read and written as runs of neighbours; a ring goes round the first `size`
cells.  What stands in a ring is cut and joined like a list, and a write behind its last
item appends to it as long as the ring has room.
-/

import Mathlib.Data.List.Basic
import Mathlib.Data.List.Range

namespace Pttbbs.Lib

variable {Item : Type}

def cells (mem : Nat → Item) (start count : Nat) : List Item :=
  (List.range count).map fun index => mem (start + index)

def copyTo (mem : Nat → Item) (start : Nat) (items : List Item) : Nat → Item := fun index =>
  if start ≤ index then (items[index - start]?).getD (mem index) else mem index

/-- The `count` items of a ring of `size` cells that starts at `head`. -/
def ring (mem : Nat → Item) (size head count : Nat) : List Item :=
  (List.range count).map fun index => mem ((head + index) % size)

@[simp] theorem length_cells (mem : Nat → Item) (start count : Nat) :
    (cells mem start count).length = count := by
  simp [cells]

@[simp] theorem length_ring (mem : Nat → Item) (size head count : Nat) :
    (ring mem size head count).length = count := by
  simp [ring]

@[simp] theorem cells_zero (mem : Nat → Item) (start : Nat) : cells mem start 0 = [] := rfl

@[simp] theorem ring_zero (mem : Nat → Item) (size head : Nat) : ring mem size head 0 = [] := rfl

theorem getElem?_ring (mem : Nat → Item) (size head : Nat) {count index : Nat}
    (within : index < count) :
    (ring mem size head count)[index]? = some (mem ((head + index) % size)) := by
  simp [ring, within]

theorem ring_add (mem : Nat → Item) (size head first rest : Nat) :
    ring mem size head (first + rest) =
      ring mem size head first ++ ring mem size ((head + first) % size) rest := by
  rw [ring, List.range_add, List.map_append, List.map_map]
  congr 1
  apply List.map_congr_left
  intro index _within
  simp only [Function.comp_apply, Nat.mod_add_mod, Nat.add_assoc]

theorem ring_eq_cells (mem : Nat → Item) {size head count : Nat} (inside : head + count ≤ size) :
    ring mem size head count = cells mem head count := by
  apply List.map_congr_left
  intro index within
  rw [Nat.mod_eq_of_lt]
  have bound := List.mem_range.mp within
  omega

theorem ring_congr {mem other : Nat → Item} {size head count : Nat}
    (same : ∀ index < count, other ((head + index) % size) = mem ((head + index) % size)) :
    ring other size head count = ring mem size head count := by
  apply List.map_congr_left
  intro index within
  exact same index (List.mem_range.mp within)

theorem cells_congr {mem other : Nat → Item} {start count : Nat}
    (same : ∀ index < count, other (start + index) = mem (start + index)) :
    cells other start count = cells mem start count := by
  apply List.map_congr_left
  intro index within
  exact same index (List.mem_range.mp within)

@[simp] theorem copyTo_nil (mem : Nat → Item) (start : Nat) : copyTo mem start [] = mem := by
  funext index
  simp [copyTo]

theorem copyTo_of_outside (mem : Nat → Item) {start : Nat} {items : List Item} {index : Nat}
    (outside : index < start ∨ start + items.length ≤ index) :
    copyTo mem start items index = mem index := by
  unfold copyTo
  split
  case isTrue after =>
      rw [List.getElem?_eq_none (by omega)]
      rfl
  case isFalse => rfl

theorem copyTo_of_inside (mem : Nat → Item) {start : Nat} {items : List Item} {index : Nat}
    (within : index < items.length) :
    copyTo mem start items (start + index) = items[index] := by
  unfold copyTo
  rw [if_pos (Nat.le_add_right start index), Nat.add_sub_cancel_left,
    List.getElem?_eq_getElem within]
  rfl

theorem copyTo_single (mem : Nat → Item) (start index : Nat) (item : Item) :
    copyTo mem start [item] index = if index = start then item else mem index := by
  split
  case isTrue same =>
      have first : 0 < [item].length := Nat.zero_lt_one
      rw [same]
      exact copyTo_of_inside mem first
  case isFalse apart =>
      apply copyTo_of_outside
      rw [List.length_singleton]
      omega

theorem cells_copyTo (mem : Nat → Item) (start : Nat) (items : List Item) :
    cells (copyTo mem start items) start items.length = items := by
  apply List.ext_getElem
  · exact length_cells _ _ _
  · intro index _left within
    simp only [cells, List.getElem_map, List.getElem_range]
    exact copyTo_of_inside mem within

theorem ring_place_ne {size head left right : Nat} (before : left < right)
    (near : right < left + size) : (head + left) % size ≠ (head + right) % size := by
  intro same
  have divides : size ∣ (head + right) - (head + left) :=
    Nat.dvd_of_mod_eq_zero (Nat.sub_mod_eq_zero_of_mod_eq same.symm)
  have zero := Nat.eq_zero_of_dvd_of_lt divides (by omega)
  omega

theorem ring_copyTo (mem : Nat → Item) {size head count start : Nat} {items : List Item}
    (behind : start = (head + count) % size) (neighbours : start + items.length ≤ size)
    (room : count + items.length ≤ size) :
    ring (copyTo mem start items) size head (count + items.length) =
      ring mem size head count ++ items := by
  rw [ring_add, ← behind, ring_eq_cells _ neighbours, cells_copyTo]
  congr 1
  apply ring_congr
  intro index within
  apply copyTo_of_outside
  by_contra touched
  -- The touched cell is both an old item's and one of those behind the last item.
  have place : (head + index) % size =
      (head + (count + ((head + index) % size - start))) % size := by
    rw [← Nat.add_assoc, ← Nat.mod_add_mod (head + count), ← behind,
      Nat.add_sub_cancel' (by omega), Nat.mod_eq_of_lt (Nat.mod_lt _ (by omega))]
  exact ring_place_ne (by omega) (by omega) place

end Pttbbs.Lib
