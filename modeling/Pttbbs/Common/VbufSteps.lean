/-
One operation of the ring buffer against one operation of the queue.

Each operation keeps the buffer's bytes those of the queue, in the wrapped and in the
unwrapped layout.  What it hands back is compared with what the queue hands back.
-/

import Pttbbs.Common.VbufFifo
import Mathlib.Data.List.TakeDrop

namespace Pttbbs.Common.Vbuf

open Pttbbs.Lib

variable {v : VBUF} {capacity : Nat} {bytes : List UInt8}

def Serves (v : VBUF) (capacity : Nat) (bytes : List UInt8) (op : Op) : Prop :=
  ∃ next out, step v op = some (next, out) ∧
    (∀ rest, fifoNext capacity bytes op = some rest → next.Holds capacity rest) ∧
    (OutRight capacity bytes out op ↔ Condition v op) ∧ (Refused v op → next = v)

/-! ### Single bytes -/

theorem serves_add (holds : v.Holds capacity bytes) (c : UInt8) :
    Serves v capacity bytes (.add c) := by
  have bound := holds.length_le
  by_cases full : vbufIsFull v = true
  · have length := holds.isFull_iff.mp full
    refine ⟨v, .code 0, ?_, ?_, ?_, fun _refused => rfl⟩
    · simp only [step, vbufAdd, if_pos full]
    · intro rest next
      injection next with next
      subst next
      rw [if_neg (by omega)]
      exact holds
    · simp only [OutRight, Condition, iff_true]
      rw [if_neg (by omega)]
  · have length := mt holds.isFull_iff.mpr full
    have tail := holds.tail
    have room : bytes.length + [c].length ≤ capacity := by
      change bytes.length + 1 ≤ capacity
      omega
    have stored := holds.extend (show v.tail + [c].length ≤ v.size from tail) room
      (VBUF.mod_of_le tail)
    have added : vbufAdd v c = ((vbufAdd v c).1, 1) := by
      simp only [vbufAdd, if_neg full]
    refine ⟨(vbufAdd v c).1, .code 1, ?_, ?_, ?_, fun is => absurd is full⟩
    · rw [step, added]
    · intro rest next
      injection next with next
      subst next
      rw [if_pos (by omega), vbufAdd, if_neg full]
      exact stored
    · simp only [OutRight, Condition, iff_true]
      rw [if_pos (by omega)]

theorem vbufPeek_eq (holds : v.Holds capacity bytes) :
    vbufPeek v = bytes.head?.elim eof fun byte => (byte.toNat : Int) := by
  unfold vbufPeek
  cases bytes with
  | nil =>
      rw [if_pos (holds.isEmpty_iff.mpr rfl)]
      rfl
  | cons first rest =>
      have nonempty : ¬ vbufIsEmpty v = true := fun empty =>
        List.cons_ne_nil first rest (holds.isEmpty_iff.mp empty)
      rw [if_neg nonempty, holds.mem_head]
      rfl

theorem vbufPop_holds (holds : v.Holds capacity bytes) :
    (vbufPop v).1.Holds capacity bytes.tail := by
  unfold vbufPop
  apply VBUF.Holds.normalize
  rw [vbufPeek_eq holds]
  cases bytes with
  | nil => exact holds
  | cons first rest =>
      have head := holds.head
      have byte : ((first :: rest).head?.elim eof fun byte => (byte.toNat : Int)) ≥ 0 :=
        Int.natCast_nonneg first.toNat
      rw [if_pos byte]
      exact holds.advance (Nat.le_add_left 1 rest.length) (VBUF.mod_of_le head)

theorem serves_pop (holds : v.Holds capacity bytes) : Serves v capacity bytes .pop := by
  refine ⟨_, _, rfl, ?_, ?_, False.elim⟩
  · intro rest next
    injection next with next
    subst next
    exact vbufPop_holds holds
  · simp only [OutRight, Condition, iff_true, Out.code.injEq]
    exact vbufPeek_eq holds

theorem serves_popn (holds : v.Holds capacity bytes) (n : Nat) :
    Serves v capacity bytes (.popn n) := by
  refine ⟨_, _, rfl, ?_, ?_, False.elim⟩
  · intro rest next
    simp only [fifoNext] at next
    split at next
    case isFalse => cases next
    case isTrue queued =>
        injection next with next
        subst next
        have head := holds.head
        have length := holds.length_eq
        have sizeEq := holds.size_eq
        have bound := holds.length_le
        unfold vbufPopn
        by_cases before : v.head + n < v.size
        · rw [if_pos before]
          exact holds.advance queued (Nat.mod_eq_of_lt before)
        · rw [if_neg before]
          have passed : ¬ v.head + n - v.size > v.tail := by
            unfold vbufSize at length
            have tail := holds.tail
            split at length <;> omega
          simp only [if_neg passed]
          apply VBUF.Holds.normalize
          apply holds.advance queued
          rw [Nat.mod_eq_sub_mod (by omega), Nat.mod_eq_of_lt (by omega)]
  · simp only [OutRight, Condition]

/-! ### Blocks -/

section

variable (holds : v.Holds capacity bytes)

include holds

theorem tailSz_cases :
    (v.head + tailSz v < v.size ∧ tailSz v = bytes.length) ∨
      (v.head + tailSz v = v.size ∧ tailSz v ≤ bytes.length) := by
  have length := holds.length_eq
  have head := holds.head
  have tail := holds.tail
  unfold vbufSize at length
  unfold tailSz
  split at length
  case isTrue before =>
      rw [if_pos before]
      left
      omega
  case isFalse behind =>
      rw [if_neg behind]
      right
      omega

theorem headSz_cases :
    (v.tail + headSz v < v.size ∧ headSz v + bytes.length = capacity + 1) ∨
      v.tail + headSz v = v.size := by
  have length := holds.length_eq
  have sizeEq := holds.size_eq
  have head := holds.head
  have tail := holds.tail
  unfold vbufSize at length
  unfold headSz
  split at length
  case isTrue before =>
      rw [if_neg (by omega)]
      right
      omega
  case isFalse behind =>
      rw [if_pos (by omega)]
      left
      omega

theorem getblkPhase_spec {sz : Nat}
    (queued : sz ≤ bytes.length) :
    ∃ next count, getblkPhase v sz = (next, bytes.take count, sz - count) ∧
      count = min (tailSz v) sz ∧ next.Holds capacity (bytes.drop count) ∧
      (count < sz → next.head = 0) := by
  have ends := tailSz_cases holds
  have fits : v.head + min (tailSz v) sz ≤ v.size := by omega
  have moved := holds.advance (show min (tailSz v) sz ≤ bytes.length by omega)
    (VBUF.mod_of_le fits)
  refine ⟨(getblkPhase v sz).1, min (tailSz v) sz, ?_, rfl, moved, ?_⟩
  · rw [← holds.cells_take (by omega) fits]
    rfl
  · intro more
    exact if_pos (by omega)

theorem getblkPhases_spec {sz : Nat}
    (queued : sz ≤ bytes.length) :
    ∃ next, getblkPhases 2 v sz = (next, bytes.take sz, 0) ∧
      next.Holds capacity (bytes.drop sz) := by
  obtain ⟨first, count, phase, countEq, firstHolds, wraps⟩ := getblkPhase_spec holds queued
  by_cases nothing : sz = 0
  · subst nothing
    exact ⟨v, rfl, holds⟩
  · simp only [getblkPhases, if_neg nothing, phase]
    have bound := holds.length_le
    have length := firstHolds.length_eq
    have dropped := List.length_drop (i := count) (l := bytes)
    by_cases all : sz - count = 0
    · have same : count = sz := by omega
      subst same
      simp only [all, ite_true, List.append_nil]
      exact ⟨first, rfl, firstHolds⟩
    · -- What is left of a block stands at the beginning of the buffer.
      have start := wraps (by omega)
      have left : sz - count ≤ (bytes.drop count).length := by omega
      obtain ⟨second, more, again, moreEq, secondHolds, _⟩ := getblkPhase_spec firstHolds left
      have whole : more = sz - count := by
        have ends := tailSz_cases firstHolds
        have sizeEq := firstHolds.size_eq
        omega
      rw [whole] at again secondHolds
      simp only [if_neg all, again, List.append_nil, Nat.sub_self]
      refine ⟨second, ?_, ?_⟩
      · rw [← List.take_add, Nat.add_sub_cancel' (by omega)]
      · rw [List.drop_drop, Nat.add_sub_cancel' (by omega)] at secondHolds
        exact secondHolds

theorem serves_getblk (sz : Nat) :
    Serves v capacity bytes (.getblk sz) := by
  have length := holds.length_eq
  by_cases refused : sz = 0 ∨ vbufSize v < sz
  · refine ⟨v, .block 0 [], ?_, ?_, ?_, fun _refused => rfl⟩
    · simp only [step, vbufGetblk, if_pos refused, Option.map_some]
    · intro rest next
      injection next with next
      subst next
      split
      case isTrue queued =>
          have nothing : sz = 0 := by omega
          rw [nothing, List.drop_zero]
          exact holds
      case isFalse => exact holds
    · simp only [OutRight, Condition, iff_true]
      rw [if_neg (by omega)]
  · obtain ⟨next, phases, nextHolds⟩ := getblkPhases_spec holds (show sz ≤ bytes.length by omega)
    refine ⟨vbufNormalize next, .block 1 (bytes.take sz), ?_, ?_, ?_, fun is => absurd is refused⟩
    · simp only [step, vbufGetblk, if_neg refused, phases, ite_true, Option.map_some]
    · intro rest same
      injection same with same
      subst same
      rw [if_pos (by omega)]
      exact nextHolds.normalize
    · simp only [OutRight, Condition, iff_true]
      rw [if_pos (by omega)]

theorem putblkPhase_spec {s : List UInt8}
    (room : bytes.length + s.length ≤ capacity) :
    ∃ next count, putblkPhase v s = (next, s.drop count) ∧ count = min (headSz v) s.length ∧
      next.Holds capacity (bytes ++ s.take count) ∧ (count < s.length → next.tail = 0) := by
  have ends := headSz_cases holds
  have taken : (s.take (min (headSz v) s.length)).length = min (headSz v) s.length := by
    rw [List.length_take]
    omega
  have fits : v.tail + min (headSz v) s.length ≤ v.size := by omega
  refine ⟨_, min (headSz v) s.length, rfl, rfl, ?_, ?_⟩
  · apply holds.extend
    · rw [taken]
      exact fits
    · rw [taken]
      omega
    · rw [taken]
      exact VBUF.mod_of_le fits
  · intro more
    exact if_pos (by omega)

theorem putblkPhases_spec {s : List UInt8}
    (room : bytes.length + s.length ≤ capacity) :
    ∃ next, putblkPhases 2 v s = (next, []) ∧ next.Holds capacity (bytes ++ s) := by
  by_cases nothing : s = []
  · subst nothing
    refine ⟨v, rfl, ?_⟩
    rw [List.append_nil]
    exact holds
  · obtain ⟨first, count, phase, countEq, firstHolds, wraps⟩ := putblkPhase_spec holds room
    have nonzero : ¬ s.length = 0 := mt List.length_eq_zero_iff.mp nothing
    simp only [putblkPhases, if_neg nonzero, phase]
    by_cases all : s.length ≤ count
    · have taken : s.take count = s := List.take_of_length_le all
      have left : s.drop count = [] := List.drop_of_length_le all
      rw [taken] at firstHolds
      exact ⟨first, by rw [left]; rfl, firstHolds⟩
    · have start := wraps (by omega)
      have takenLength : (s.take count).length = count := by
        rw [List.length_take]
        omega
      have left : (bytes ++ s.take count).length + (s.drop count).length ≤ capacity := by
        rw [List.length_append, List.length_drop, takenLength]
        omega
      obtain ⟨second, more, again, moreEq, secondHolds, _⟩ := putblkPhase_spec firstHolds left
      have whole : (s.drop count).length ≤ more := by
        have ends := headSz_cases firstHolds
        have sizeEq := firstHolds.size_eq
        rw [List.length_append, takenLength] at ends left
        omega
      have missing : ¬ (s.drop count).length = 0 := by
        rw [List.length_drop]
        omega
      rw [List.take_of_length_le whole, List.append_assoc, List.take_append_drop] at secondHolds
      refine ⟨second, ?_, secondHolds⟩
      simp only [if_neg missing, again]
      rw [List.drop_of_length_le whole]

theorem vbufPutblk_spec {p : List UInt8} (nonempty : p ≠ [])
    (room : bytes.length + p.length ≤ capacity) :
    ∃ next, vbufPutblk v p = some (next, 1) ∧ next.Holds capacity (bytes ++ p) := by
  obtain ⟨next, phases, nextHolds⟩ := putblkPhases_spec holds room
  have space := holds.space_eq
  have positive := List.length_pos_iff.mpr nonempty
  refine ⟨next, ?_, nextHolds⟩
  unfold vbufPutblk
  rw [if_neg (by omega), phases]
  rfl

theorem serves_putblk (p : List UInt8) :
    Serves v capacity bytes (.putblk p) := by
  have space := holds.space_eq
  have bound := holds.length_le
  by_cases refused : p = [] ∨ vbufSpace v < p.length
  · refine ⟨v, .code 0, ?_, ?_, ?_, fun _refused => rfl⟩
    · have test : p.length = 0 ∨ vbufSpace v < p.length :=
        refused.imp_left List.length_eq_zero_iff.mpr
      simp only [step, vbufPutblk, if_pos test, Option.map_some]
    · intro rest next
      injection next with next
      subst next
      rcases refused with nothing | much
      · subst nothing
        rw [List.append_nil, ite_self]
        exact holds
      · rw [if_neg (by omega)]
        exact holds
    · simp only [OutRight, Condition, iff_true]
      rw [if_neg]
      rintro ⟨nonempty, room⟩
      rcases refused with nothing | much
      · exact nonempty nothing
      · omega
  · rw [not_or] at refused
    have room : bytes.length + p.length ≤ capacity := by omega
    obtain ⟨next, stored, nextHolds⟩ := vbufPutblk_spec holds refused.1 room
    refine ⟨next, .code 1, ?_, ?_, ?_, fun is => absurd is (not_or.mpr refused)⟩
    · simp only [step, stored, Option.map_some]
    · intro rest same
      injection same with same
      subst same
      rw [if_pos room]
      exact nextHolds
    · simp only [OutRight, Condition, iff_true]
      rw [if_pos ⟨refused.1, room⟩]

theorem serves_putstr (s : List UInt8) :
    Serves v capacity bytes (.putstr s) := by
  have space := holds.space_eq
  have bound := holds.length_le
  by_cases refused : vbufSpace v < (strBytes s).length
  · refine ⟨v, .code 0, ?_, ?_, ?_, fun _refused => rfl⟩
    · simp only [step, vbufPutstr, if_pos refused, Option.map_some]
    · intro rest next
      injection next with next
      subst next
      rw [if_neg (by omega)]
      exact holds
    · simp only [OutRight, Condition, iff_true]
      rw [if_neg (by omega)]
  · have room : bytes.length + (strBytes s).length ≤ capacity := by omega
    have stored : ∃ next code, vbufPutblk v (strBytes s) = some (next, code) ∧
        next.Holds capacity (bytes ++ strBytes s) := by
      by_cases nonempty : strBytes s = []
      · -- The empty string leaves the buffer alone, though it counts as put.
        rw [nonempty]
        refine ⟨v, 0, rfl, ?_⟩
        rw [List.append_nil]
        exact holds
      · obtain ⟨next, put, nextHolds⟩ := vbufPutblk_spec holds nonempty room
        exact ⟨next, 1, put, nextHolds⟩
    obtain ⟨next, code, put, nextHolds⟩ := stored
    refine ⟨next, .code 1, ?_, ?_, ?_, fun is => absurd is refused⟩
    · simp only [step, vbufPutstr, if_neg refused, put, Option.map_some]
    · intro rest same
      injection same with same
      subst same
      rw [if_pos room]
      exact nextHolds
    · simp only [OutRight, Condition, iff_true]
      rw [if_pos room]

end

end Pttbbs.Common.Vbuf
