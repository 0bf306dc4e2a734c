/-
What a ring buffer holds.

The queue is read from `head` round to `tail`.  Moving `head` on takes bytes out at the
front and writing at `tail` puts bytes in at the back, in either layout, and each
operation of the buffer is made of such moves.
-/

import Pttbbs.Common.Vbuf

namespace Pttbbs.Common.Vbuf

open Pttbbs.Lib

namespace VBUF

def queue (v : VBUF) : List UInt8 := ring v.mem v.size v.head (vbufSize v)

/-- The pointers stay inside the buffer, which has one cell more than its capacity. -/
structure Inside (v : VBUF) : Prop where
  fits : v.capacity + 1 = v.size
  room : 0 < v.capacity
  head : v.head < v.size
  tail : v.tail < v.size

structure Holds (v : VBUF) (capacity : Nat) (bytes : List UInt8) : Prop extends Inside v where
  same : v.capacity = capacity
  queue : v.queue = bytes

theorem length_queue (v : VBUF) : v.queue.length = vbufSize v := length_ring _ _ _ _

theorem vbufNew_holds (mem : Nat → UInt8) {szbuf : Nat} (large : 1 < szbuf) :
    (vbufNew mem szbuf).Holds (szbuf - 1) [] := by
  refine ⟨⟨?_, ?_, ?_, ?_⟩, rfl, rfl⟩
  all_goals simp only [vbufNew]
  all_goals omega

theorem Inside.vbufSize_eq {v : VBUF} (inside : v.Inside) {count : Nat} (small : count < v.size)
    (ends : (v.head + count) % v.size = v.tail) : vbufSize v = count := by
  have head := inside.head
  unfold vbufSize
  by_cases short : v.head + count < v.size
  · rw [Nat.mod_eq_of_lt short] at ends
    rw [if_pos (by omega)]
    omega
  · rw [Nat.mod_eq_sub_mod (by omega), Nat.mod_eq_of_lt (by omega)] at ends
    rw [if_neg (by omega)]
    omega

theorem Inside.tail_eq {v : VBUF} (inside : v.Inside) :
    (v.head + vbufSize v) % v.size = v.tail := by
  have head := inside.head
  have tail := inside.tail
  unfold vbufSize
  split
  case isTrue before => rw [Nat.add_sub_cancel' before, Nat.mod_eq_of_lt tail]
  case isFalse behind =>
      rw [show v.head + (v.size - v.head + v.tail) = v.size + v.tail by omega,
        Nat.add_mod_left, Nat.mod_eq_of_lt tail]

theorem Inside.vbufSize_le {v : VBUF} (inside : v.Inside) : vbufSize v ≤ v.capacity := by
  have capacity := inside.fits
  have head := inside.head
  have tail := inside.tail
  unfold vbufSize
  split <;> omega

section

variable {v : VBUF} {capacity : Nat} {bytes : List UInt8}

theorem Holds.length_eq (holds : v.Holds capacity bytes) : vbufSize v = bytes.length := by
  rw [← holds.queue, length_queue]

theorem Holds.length_le (holds : v.Holds capacity bytes) : bytes.length ≤ capacity := by
  rw [← holds.length_eq, ← holds.same]
  exact holds.vbufSize_le

theorem Holds.space_eq (holds : v.Holds capacity bytes) :
    vbufSpace v = capacity - bytes.length := by
  rw [vbufSpace, holds.length_eq, holds.same]

theorem Holds.size_eq (holds : v.Holds capacity bytes) : v.size = capacity + 1 := by
  rw [← holds.same]
  exact holds.fits.symm

theorem Holds.isEmpty_iff (holds : v.Holds capacity bytes) :
    vbufIsEmpty v = true ↔ bytes = [] := by
  have head := holds.head
  rw [← List.length_eq_zero_iff, ← holds.length_eq, vbufIsEmpty, beq_iff_eq]
  unfold vbufSize
  split <;> omega

theorem Holds.isFull_iff (holds : v.Holds capacity bytes) :
    vbufIsFull v = true ↔ bytes.length = capacity := by
  have bound := holds.length_le
  rw [vbufIsFull, beq_iff_eq, holds.space_eq]
  omega

theorem Holds.mem_head {first : UInt8} {rest : List UInt8}
    (holds : v.Holds capacity (first :: rest)) : v.mem v.head = first := by
  have length := holds.length_eq
  have read := getElem?_ring v.mem v.size v.head
    (show 0 < vbufSize v by rw [length]; exact Nat.succ_pos _)
  rw [Nat.add_zero, Nat.mod_eq_of_lt holds.head] at read
  have queued := holds.queue
  rw [VBUF.queue] at queued
  rw [queued] at read
  exact (Option.some.inj read).symm

theorem Holds.cells_take (holds : v.Holds capacity bytes) {count : Nat}
    (queued : count ≤ bytes.length) (inside : v.head + count ≤ v.size) :
    cells v.mem v.head count = bytes.take count := by
  have length := holds.length_eq
  rw [← ring_eq_cells v.mem inside, ← holds.queue, VBUF.queue,
    show vbufSize v = count + (vbufSize v - count) by omega, ring_add,
    List.take_left' (length_ring _ _ _ _)]

theorem Holds.cells_drop (holds : v.Holds capacity bytes) {first count : Nat}
    (queued : first + count ≤ bytes.length) (wraps : v.head + first = v.size) :
    cells v.mem 0 count = (bytes.drop first).take count := by
  have length := holds.length_eq
  have bound := holds.vbufSize_le
  have capacityEq := holds.fits
  have start : (v.head + first) % v.size = 0 := by rw [wraps, Nat.mod_self]
  rw [← holds.queue, VBUF.queue, show vbufSize v = first + (count + (vbufSize v - (first + count)))
    by omega, ring_add, List.drop_left' (length_ring _ _ _ _), start, ring_add,
    List.take_left' (length_ring _ _ _ _)]
  exact (ring_eq_cells v.mem (by omega)).symm

theorem Holds.advance (holds : v.Holds capacity bytes) {count head : Nat}
    (queued : count ≤ bytes.length) (goes : (v.head + count) % v.size = head) :
    ({ v with head := head } : VBUF).Holds capacity (bytes.drop count) := by
  have length := holds.length_eq
  have bound := holds.vbufSize_le
  have capacityEq := holds.fits
  have moved : ({ v with head := head } : VBUF).Inside :=
    { holds.toInside with head := goes ▸ Nat.mod_lt _ (by omega) }
  have left : vbufSize { v with head := head } = vbufSize v - count := by
    apply moved.vbufSize_eq (show vbufSize v - count < v.size by omega)
    change (head + (vbufSize v - count)) % v.size = v.tail
    rw [← goes, Nat.mod_add_mod, Nat.add_assoc, Nat.add_sub_cancel' (by omega), holds.tail_eq]
  refine { moved with same := holds.same, queue := ?_ }
  rw [VBUF.queue, left, ← holds.queue, VBUF.queue,
    show vbufSize v = count + (vbufSize v - count) by omega, ring_add,
    List.drop_left' (length_ring _ _ _ _), goes, Nat.add_sub_cancel_left]

theorem Holds.extend (holds : v.Holds capacity bytes) {added : List UInt8} {tail : Nat}
    (neighbours : v.tail + added.length ≤ v.size)
    (room : bytes.length + added.length ≤ capacity)
    (goes : (v.tail + added.length) % v.size = tail) :
    ({ v with mem := copyTo v.mem v.tail added, tail := tail } : VBUF).Holds capacity
      (bytes ++ added) := by
  have length := holds.length_eq
  have sizeEq := holds.size_eq
  have moved :
      ({ v with mem := copyTo v.mem v.tail added, tail := tail } : VBUF).Inside :=
    { holds.toInside with tail := goes ▸ Nat.mod_lt _ (by omega) }
  have grown : vbufSize { v with mem := copyTo v.mem v.tail added, tail := tail } =
      vbufSize v + added.length := by
    apply moved.vbufSize_eq (show vbufSize v + added.length < v.size by omega)
    change (v.head + (vbufSize v + added.length)) % v.size = tail
    rw [← Nat.add_assoc, ← Nat.mod_add_mod, holds.tail_eq, goes]
  refine { moved with same := holds.same, queue := ?_ }
  rw [VBUF.queue, grown]
  change ring (copyTo v.mem v.tail added) v.size v.head (vbufSize v + added.length) = _
  rw [ring_copyTo v.mem holds.tail_eq.symm neighbours (by omega), ← holds.queue, VBUF.queue]

theorem Holds.normalize (holds : v.Holds capacity bytes) :
    (vbufNormalize v).Holds capacity bytes := by
  unfold vbufNormalize
  split
  case isFalse => exact holds
  case isTrue meets =>
      have sizeEq := holds.size_eq
      have empty : bytes = [] := by
        rw [← holds.isEmpty_iff, vbufIsEmpty, beq_iff_eq]
        exact meets
      subst empty
      refine ⟨{ holds.toInside with head := ?_, tail := ?_ }, holds.same, rfl⟩
      all_goals change 0 < v.size
      all_goals omega

end

theorem mod_of_le {place size : Nat} (inside : place ≤ size) :
    place % size = if place = size then 0 else place := by
  split
  case isTrue ends => rw [ends, Nat.mod_self]
  case isFalse before => exact Nat.mod_eq_of_lt (by omega)

theorem mod_of_lt_two {place size : Nat} (inside : place < size + size) :
    place % size = if place ≥ size then place - size else place := by
  split
  case isTrue behind => rw [Nat.mod_eq_sub_mod behind, Nat.mod_eq_of_lt (by omega)]
  case isFalse before => exact Nat.mod_eq_of_lt (by omega)

end VBUF

end Pttbbs.Common.Vbuf
