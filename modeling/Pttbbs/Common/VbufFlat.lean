/-
Flattening the ring buffer.

A queue that goes round the end of the buffer stands in two segments, B at the beginning
of the buffer and A at its end.  The algorithm in place reverses both and then the whole;
the other one takes B away by pieces that fit into a temporary array.
-/

import Pttbbs.Common.VbufQueue

namespace Pttbbs.Common.Vbuf

open Pttbbs.Lib

theorem memmove_of_inside (mem : Nat → UInt8) (dst src : Nat) {count offset : Nat}
    (within : offset < count) : memmove mem dst src count (dst + offset) = mem (src + offset) := by
  unfold memmove
  rw [copyTo_of_inside mem (by rw [length_cells]; exact within)]
  simp only [cells, List.getElem_map, List.getElem_range]

theorem memmove_of_outside (mem : Nat → UInt8) {dst : Nat} (src : Nat) {count index : Nat}
    (outside : index < dst ∨ dst + count ≤ index) : memmove mem dst src count index = mem index := by
  unfold memmove
  apply copyTo_of_outside
  rw [length_cells]
  exact outside

/-! ### In place -/

theorem vbufReverse_apply (mem : Nat → UInt8) (first last index : Nat) :
    vbufReverse mem first last index =
      if first ≤ index ∧ index < last then mem (first + last - 1 - index) else mem index := by
  induction mem, first, last using vbufReverse.induct with
  | case1 mem first last before c swapped ih =>
      rw [vbufReverse, if_pos before]
      refine ih.trans ?_
      simp only [swapped, c, copyTo_single]
      by_cases inner : first + 1 ≤ index ∧ index < last - 1
      · have apart : first + 1 + (last - 1) - 1 - index ≠ first ∧
            first + 1 + (last - 1) - 1 - index ≠ last - 1 := by omega
        rw [if_pos inner, if_neg apart.1, if_neg apart.2, if_pos (by omega)]
        congr 1
        omega
      · rw [if_neg inner]
        by_cases atFirst : index = first
        · rw [if_pos atFirst, if_pos (by omega)]
          congr 1
          omega
        · rw [if_neg atFirst]
          by_cases atLast : index = last - 1
          · rw [if_pos atLast, if_pos (by omega)]
            congr 1
            omega
          · rw [if_neg atLast, if_neg (by omega)]
  | case2 mem first last ends =>
      rw [vbufReverse, if_neg ends, if_neg (by omega)]

/-! ### Both algorithms -/

/-- The segments are joined at the beginning of the buffer, and nothing behind it is touched. -/
structure Joined (v flat : VBUF) : Prop where
  size : flat.size = v.size
  capacity : flat.capacity = v.capacity
  head : flat.head = 0
  tail : flat.tail = v.size - v.head + v.tail
  segmentA : ∀ offset < v.size - v.head, flat.mem offset = v.mem (v.head + offset)
  segmentB : ∀ offset < v.tail, flat.mem (v.size - v.head + offset) = v.mem offset

variable {v flat : VBUF}

theorem Joined.inside (joined : Joined v flat) (inside : v.Inside) (wrapped : v.tail < v.head) :
    flat.Inside := by
  have fits := inside.fits
  have head := inside.head
  refine ⟨?_, ?_, ?_, ?_⟩
  · rw [joined.size, joined.capacity]
    exact fits
  · rw [joined.capacity]
    exact inside.room
  · rw [joined.size, joined.head]
    omega
  · rw [joined.size, joined.tail]
    omega

theorem Joined.queue_eq (joined : Joined v flat) (inside : v.Inside) (wrapped : v.tail < v.head) :
    flat.queue = v.queue := by
  have head := inside.head
  have flatSize : vbufSize flat = vbufSize v := by
    rw [vbufSize, vbufSize, joined.head, if_pos (Nat.zero_le _), if_neg (by omega), joined.tail,
      Nat.sub_zero]
  have size : vbufSize v = v.size - v.head + v.tail := if_neg (by omega)
  rw [VBUF.queue, VBUF.queue, flatSize, joined.size, joined.head]
  apply List.map_congr_left
  intro index within
  have bound := List.mem_range.mp within
  rw [Nat.zero_add, Nat.mod_eq_of_lt (by omega)]
  by_cases front : index < v.size - v.head
  · rw [joined.segmentA index front, Nat.mod_eq_of_lt (by omega)]
  · have back := joined.segmentB (index - (v.size - v.head)) (by omega)
    rw [Nat.add_sub_cancel' (by omega)] at back
    rw [back, Nat.mod_eq_sub_mod (by omega), Nat.mod_eq_of_lt (by omega)]
    congr 1
    omega

theorem cells_queue (inside : v.Inside) (start : v.head ≤ v.tail) :
    cells v.mem v.head (vbufSize v) = v.queue := by
  have tail := inside.tail
  have size : vbufSize v = v.tail - v.head := if_pos start
  exact (ring_eq_cells v.mem (by omega)).symm

theorem vbufFlatInplace_joined (inside : v.Inside) (wrapped : v.tail < v.head) :
    Joined v (vbufFlatInplace v) := by
  have head := inside.head
  have size : vbufSize v = v.size - v.head + v.tail := if_neg (by omega)
  rw [vbufFlatInplace, if_neg (by omega), size]
  refine ⟨rfl, rfl, rfl, rfl, ?_, ?_⟩
  · intro offset within
    -- The last reversal fetches it from the moved segment A, which was reversed in its place.
    have place : 0 + (v.size - v.head + v.tail) - 1 - offset =
        v.tail + (v.size - v.head - 1 - offset) := by omega
    simp only [vbufReverse_apply _ 0 (v.size - v.head + v.tail)]
    rw [if_pos (by omega), place, memmove_of_inside _ _ _ (by omega), vbufReverse_apply,
      if_pos (by omega), vbufReverse_apply, if_neg (by omega)]
    congr 1
    omega
  · intro offset within
    simp only [vbufReverse_apply _ 0 (v.size - v.head + v.tail)]
    rw [if_pos (by omega), memmove_of_outside _ _ (by omega), vbufReverse_apply,
      if_neg (by omega), vbufReverse_apply, if_pos (by omega)]
    congr 1
    omega

/-! ### By pieces -/

theorem rotateLoop_outside (lenA lenB : Nat) (mem : Nat → UInt8) {processed index : Nat}
    (within : processed ≤ lenB) (outside : index < processed ∨ lenA + lenB ≤ index) :
    rotateLoop lenA lenB mem processed index = mem index := by
  induction mem, processed using rotateLoop.induct lenA lenB with
  | case1 mem processed more chunk tmp moved ih =>
      have piece : chunk ≤ lenB - processed := Nat.min_le_right _ _
      have written : tmp.length = chunk := length_cells _ _ _
      rw [rotateLoop, if_pos more]
      refine (ih (by omega) (by omega)).trans ?_
      rw [copyTo_of_outside _ (by omega)]
      exact memmove_of_outside mem _ (by omega)
  | case2 mem processed done => rw [rotateLoop, if_neg done]

theorem vbufFlat_joined (inside : v.Inside) (wrapped : v.tail < v.head)
    (small : v.tail ≤ tmpSize) : Joined v (vbufFlat v) := by
  have head := inside.head
  rw [vbufFlat, if_neg (by omega)]
  refine ⟨rfl, rfl, rfl, rfl, ?_, ?_⟩
  · intro offset within
    change rotateLoop (v.size - v.head) v.tail _ 0 offset = _
    have moved := memmove_of_inside v.mem v.tail v.head within
    by_cases nothing : v.tail = 0
    · rw [nothing, Nat.zero_add] at moved
      rw [rotateLoop, if_neg (by omega), nothing, moved]
    · have chunk : min tmpSize (v.tail - 0) = v.tail := by omega
      have turned := memmove_of_inside (memmove v.mem v.tail v.head (v.size - v.head)) 0 v.tail
        within
      rw [Nat.zero_add] at turned
      rw [rotateLoop, if_pos (by omega), chunk, rotateLoop, if_neg (by omega),
        copyTo_of_outside _ (by omega), Nat.zero_add, turned, moved]
  · intro offset within
    change rotateLoop (v.size - v.head) v.tail _ 0 (v.size - v.head + offset) = _
    have chunk : min tmpSize (v.tail - 0) = v.tail := by omega
    rw [rotateLoop, if_pos (by omega), chunk, rotateLoop, if_neg (by omega),
      Nat.zero_add (v.size - v.head), copyTo_of_inside _ (by rw [length_cells]; exact within)]
    simp only [cells, List.getElem_map, List.getElem_range, Nat.zero_add]
    exact memmove_of_outside _ _ (by omega)

theorem vbufFlat_first (inside : v.Inside) (wrapped : v.tail < v.head)
    (large : tmpSize < v.tail) : (vbufFlat v).mem 0 = v.mem tmpSize := by
  have head := inside.head
  have positive : 0 < tmpSize := by decide
  have chunk : min tmpSize (v.tail - 0) = tmpSize := by omega
  rw [vbufFlat, if_neg (by omega)]
  change rotateLoop (v.size - v.head) v.tail (memmove v.mem v.tail v.head (v.size - v.head)) 0 0 = _
  rw [rotateLoop, if_pos (by omega), chunk, rotateLoop_outside _ _ _ (by omega) (by omega),
    copyTo_of_outside _ (by omega)]
  have moved := memmove_of_inside (memmove v.mem v.tail v.head (v.size - v.head)) 0 (0 + tmpSize)
    (show 0 < v.size - v.head by omega)
  rw [Nat.add_zero] at moved
  rw [moved, Nat.zero_add, Nat.add_zero]
  exact memmove_of_outside _ _ (by omega)

/-! ### What flattening promises -/

def SameQueue (left right : VBUF) : Prop :=
  left.head = right.head ∧ left.tail = right.tail ∧ left.queue = right.queue

/--
The string of a queue that is not empty: its bytes stand where the result points, a NUL is
behind them inside the buffer, and what is behind the buffer stays as it was.
-/
def CstrReturns (v : VBUF) : Prop :=
  vbufIsEmpty v = false → ∃ place, (vbufCstr v).2 = some place ∧
    cells (vbufCstr v).1.mem place v.queue.length = v.queue ∧
    (vbufCstr v).1.mem (place + v.queue.length) = 0 ∧ place + v.queue.length < v.size ∧
    ∀ index ≥ v.size, (vbufCstr v).1.mem index = v.mem index

/-- The queue is kept, begins at the beginning of the buffer, and is as the other way gives. -/
def Flattens (v : VBUF) : Prop :=
  (vbufFlat v).queue = v.queue ∧ (vbufFlat v).head = 0 ∧
    SameQueue (vbufFlat v) (vbufFlatInplace v) ∧ CstrReturns v

theorem Joined.sameQueue {other : VBUF} (joined : Joined v flat) (again : Joined v other)
    (inside : v.Inside) (wrapped : v.tail < v.head) : SameQueue flat other :=
  ⟨joined.head.trans again.head.symm, joined.tail.trans again.tail.symm,
    (joined.queue_eq inside wrapped).trans (again.queue_eq inside wrapped).symm⟩

theorem cstrReturns_of_flat (inside : (vbufFlat v).Inside)
    (start : (vbufFlat v).head ≤ (vbufFlat v).tail) (same : (vbufFlat v).queue = v.queue)
    (size : (vbufFlat v).size = v.size)
    (kept : ∀ index ≥ v.size, (vbufFlat v).mem index = v.mem index) : CstrReturns v := by
  intro nonempty
  have tail := inside.tail
  have length : (vbufFlat v).head + v.queue.length = (vbufFlat v).tail := by
    rw [← same, VBUF.length_queue, vbufSize, if_pos start, Nat.add_sub_cancel' start]
  have result : vbufCstr v = ({ vbufFlat v with
      mem := copyTo (vbufFlat v).mem (vbufFlat v).tail [0] }, some (vbufFlat v).head) := by
    rw [vbufCstr, nonempty]
    rfl
  rw [result]
  refine ⟨(vbufFlat v).head, rfl, ?_, ?_, ?_, ?_⟩
  · have joined := cells_queue inside start
    rw [same, ← VBUF.length_queue, same] at joined
    refine (cells_congr ?_).trans joined
    intro index within
    exact copyTo_of_outside _ (by omega)
  · rw [length]
    exact (copyTo_single _ _ _ _).trans (if_pos rfl)
  · omega
  · intro index behind
    refine (copyTo_of_outside _ (by rw [List.length_singleton]; omega)).trans (kept index behind)

theorem flattens_of_wrapped (inside : v.Inside) (wrapped : v.tail < v.head)
    (small : v.tail ≤ tmpSize) : Flattens v := by
  have head := inside.head
  have joined := vbufFlat_joined inside wrapped small
  have queue := joined.queue_eq inside wrapped
  refine ⟨queue, joined.head, ?_, ?_⟩
  · exact joined.sameQueue (vbufFlatInplace_joined inside wrapped) inside wrapped
  · apply cstrReturns_of_flat (joined.inside inside wrapped) _ queue joined.size
    · intro index behind
      rw [vbufFlat, if_neg (by omega)]
      refine (rotateLoop_outside _ _ _ (Nat.zero_le _) (by omega)).trans ?_
      exact memmove_of_outside _ _ (by omega)
    · rw [joined.head]
      exact Nat.zero_le _

theorem flattens_of_start (inside : v.Inside) (start : v.head = 0) : Flattens v := by
  have unwrapped : v.tail ≥ v.head := by omega
  have flat : vbufFlat v = v := if_pos unwrapped
  have inplace : vbufFlatInplace v = v := if_pos unwrapped
  refine ⟨?_, ?_, ?_, ?_⟩
  · rw [flat]
  · rw [flat, start]
  · rw [flat, inplace]
    exact ⟨rfl, rfl, rfl⟩
  · apply cstrReturns_of_flat
    · rw [flat]
      exact inside
    · rw [flat]
      exact unwrapped
    · rw [flat]
    · rw [flat]
    · intro index _behind
      rw [flat]

def marked (index : Nat) : UInt8 := if index = tmpSize then 1 else 0

theorem not_flattens_of_large (inside : v.Inside) (wrapped : v.tail < v.head)
    (large : tmpSize < v.tail) (content : v.mem = marked) : ¬ Flattens v := by
  rintro ⟨queue, start, _⟩
  have head := inside.head
  have first := vbufFlat_first inside wrapped large
  have flatSize : vbufSize (vbufFlat v) = v.size - v.head + v.tail := by
    rw [vbufFlat, if_neg (by omega)]
    exact if_pos (Nat.zero_le _)
  have size : vbufSize v = v.size - v.head + v.tail := if_neg (by omega)
  have left := getElem?_ring (vbufFlat v).mem (vbufFlat v).size (vbufFlat v).head
    (show 0 < vbufSize (vbufFlat v) by omega)
  have right := getElem?_ring v.mem v.size v.head (show 0 < vbufSize v by omega)
  rw [VBUF.queue, VBUF.queue] at queue
  rw [queue, right, Nat.add_zero, Nat.mod_eq_of_lt head, start, Nat.add_zero, Nat.zero_mod, first,
    content] at left
  have apart : ¬ v.head = tmpSize := by omega
  have differ : marked v.head ≠ marked tmpSize := by
    rw [marked, marked, if_neg apart, if_pos rfl]
    decide
  exact differ (Option.some.inj left)

/--
Whatever the content, flattening keeps its promises exactly where the queue begins at the
beginning of the buffer, or goes round its end with a segment B of at most 128 bytes.
-/
theorem flattens_iff {size head tail : Nat} (room : 1 < size) (headInside : head < size)
    (tailInside : tail < size) :
    (∀ mem, Flattens { mem, size, head, tail, capacity := size - 1 }) ↔
      head = 0 ∨ tail < head ∧ tail ≤ 128 := by
  have inside : ∀ mem, ({ mem, size, head, tail, capacity := size - 1 } : VBUF).Inside :=
    fun mem => ⟨Nat.sub_add_cancel (by omega), Nat.sub_pos_of_lt room, headInside, tailInside⟩
  constructor
  · intro flattens
    by_contra outside
    by_cases wrapped : tail < head
    · have large : tmpSize < tail := by
        unfold tmpSize
        omega
      exact not_flattens_of_large (inside marked) wrapped large rfl (flattens marked)
    · -- A queue in one piece stays where it is.
      obtain ⟨_, start, _⟩ := flattens marked
      rw [vbufFlat, if_pos (show tail ≥ head by omega)] at start
      exact outside (Or.inl start)
  · rintro (start | ⟨wrapped, small⟩) mem
    · exact flattens_of_start (inside mem) start
    · exact flattens_of_wrapped (inside mem) wrapped small

/-- A buffer of 40 cells with a queue round its end, as the test of the source has it. -/
theorem flattens_short_segment :
    (∀ mem, Flattens { mem, size := 40, head := 19, tail := 9, capacity := 39 }) ↔
      19 = 0 ∨ 9 < 19 ∧ 9 ≤ 128 :=
  flattens_iff (by decide) (by decide) (by decide)

/-- With a segment B of 150 bytes the first byte of the queue is lost. -/
theorem not_flattens_long_segment :
    ¬ Flattens { mem := marked, size := 260, head := 200, tail := 150, capacity := 259 } := by
  apply not_flattens_of_large
  · exact ⟨rfl, by decide, by decide, by decide⟩
  · decide
  · decide
  · rfl

end Pttbbs.Common.Vbuf
