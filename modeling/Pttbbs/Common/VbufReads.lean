/-
Searches of the ring buffer, strings taken from it, and transfers.

These hand back what a queue would only in some states: the operations keep the queue in
every state, and `Condition` is met exactly where the result is that of the queue.
-/

import Pttbbs.Common.VbufSteps

namespace Pttbbs.Common.Vbuf

open Pttbbs.Lib

variable {v : VBUF} {capacity : Nat} {bytes : List UInt8}

/-! ### Searches -/

theorem toInt_eq_iff (value : Nat) : toInt value = value ↔ value < 2 ^ 31 := by
  unfold toInt
  rw [Int.bmod_def]
  split <;> omega

theorem toInt_le (value : Nat) : toInt value ≤ value := by
  unfold toInt
  rw [Int.bmod_def]
  split <;> omega

theorem strchrPlace_eq (holds : v.Holds capacity bytes) (c : UInt8) :
    strchrPlace v c = memchr bytes c := by
  have length := holds.length_eq
  have head := holds.head
  have tail := holds.tail
  unfold strchrPlace
  by_cases empty : vbufIsEmpty v = true
  · rw [if_pos empty, holds.isEmpty_iff.mp empty, memchr, List.findIdx?_nil]
  · rw [if_neg empty]
    have apart : v.head ≠ v.tail := fun same => empty (beq_iff_eq.mpr same)
    by_cases wrapped : v.tail < v.head
    · have size : v.size - v.head + v.tail = bytes.length := by
        rw [← length, vbufSize, if_neg (by omega)]
      have front := holds.cells_take (show v.size - v.head ≤ bytes.length by omega) (by omega)
      have back := holds.cells_drop (show v.size - v.head + v.tail ≤ bytes.length by omega)
        (by omega)
      have rest : (bytes.drop (v.size - v.head)).take v.tail = bytes.drop (v.size - v.head) :=
        List.take_of_length_le (by rw [List.length_drop]; omega)
      have frontLength : (bytes.take (v.size - v.head)).length = v.size - v.head := by
        rw [List.length_take]
        omega
      have split : memchr bytes c =
          (memchr (bytes.take (v.size - v.head)) c).or
            ((memchr (bytes.drop (v.size - v.head)) c).map fun place =>
              place + (v.size - v.head)) := by
        conv_lhs => rw [← List.take_append_drop (v.size - v.head) bytes]
        rw [memchr, List.findIdx?_append, frontLength, memchr, memchr]
      simp only [if_pos wrapped, if_neg (show ¬ v.tail > v.head by omega)]
      rw [front, back, rest, split]
      cases memchr (bytes.take (v.size - v.head)) c with
      | some place => simp only [Option.isSome_some, ite_true, Option.some_or]
      | none =>
          simp only [Option.isSome_none, Bool.false_eq_true, ite_false, Option.none_or,
            Nat.add_comm]
    · have size : v.tail - v.head = bytes.length := by
        rw [← length, vbufSize, if_pos (by omega)]
      have front := holds.cells_take (show v.tail - v.head ≤ bytes.length by omega) (by omega)
      rw [size, List.take_length] at front
      simp only [if_neg wrapped, size, if_pos (show v.tail > v.head by omega)]
      rw [front]
      cases memchr bytes c with
      | some place => rw [Option.isSome_some, if_pos rfl]
      | none => rfl

theorem serves_strchr (holds : v.Holds capacity bytes) (c : UInt8) :
    Serves v capacity bytes (.strchr c) := by
  refine ⟨_, _, rfl, ?_, ?_, False.elim⟩
  · intro rest next
    injection next with next
    subst next
    exact holds
  · simp only [OutRight, Condition, Out.code.injEq, holds.queue]
    rw [vbufStrchr, strchrPlace_eq holds]
    cases memchr bytes c with
    | none => simp only [position, Option.elim_none, reduceCtorEq, false_implies, implies_true]
    | some place =>
        simp only [position, Option.elim_some, Option.some.injEq, forall_eq']
        exact toInt_eq_iff place

theorem getElem?_queue (holds : v.Holds capacity bytes) {index : Nat}
    (queued : index < bytes.length) :
    bytes[index]? = some (v.mem (if v.head + index ≥ v.size then v.head + index - v.size
      else v.head + index)) := by
  have length := holds.length_eq
  have sizeEq := holds.size_eq
  have bound := holds.length_le
  have head := holds.head
  rw [← VBUF.mod_of_lt_two (by omega), ← holds.queue, VBUF.queue]
  exact getElem?_ring v.mem v.size v.head (by omega)

def peeked (bytes : List UInt8) (i : Int) : Int :=
  if 0 ≤ i then (bytes[i.toNat]?).elim eof fun byte => byte.toNat else eof

theorem peeked_of_neg {i : Int} (negative : i < 0) : peeked bytes i = eof :=
  if_neg (by omega)

theorem peeked_of_behind {i : Int} (behind : bytes.length ≤ i) : peeked bytes i = eof := by
  unfold peeked
  split
  case isFalse => rfl
  case isTrue =>
      rw [List.getElem?_eq_none (by omega)]
      rfl

theorem peeked_of_queued (holds : v.Holds capacity bytes) {i : Int} (positive : 0 ≤ i)
    (queued : i < bytes.length) :
    peeked bytes i = (v.mem (if v.head + i ≥ v.size then v.head + i - v.size
      else v.head + i).toNat).toNat := by
  unfold peeked
  rw [if_pos positive, getElem?_queue holds (by omega)]
  have place : (if v.head + i.toNat ≥ v.size then v.head + i.toNat - v.size
      else v.head + i.toNat) =
      (if (v.head : Int) + i ≥ v.size then (v.head : Int) + i - v.size else v.head + i).toNat := by
    split
    case isTrue large =>
        rw [if_pos (by omega)]
        omega
    case isFalse small =>
        rw [if_neg (by omega)]
        omega
  rw [place]
  rfl

theorem byte_ne_eof (byte : UInt8) : (byte.toNat : Int) ≠ eof := by
  unfold eof
  omega

theorem peekat_unwrapped (holds : v.Holds capacity bytes) {i : Int} (near : i < capacity)
    (before : v.head < v.tail) :
    (if v.head + i < v.tail then
        if 0 ≤ v.head + i then some ((v.mem (v.head + i).toNat).toNat : Int) else none
      else
        let s := if v.head + i ≥ v.size then v.head + i - v.size else v.head + i
        if s < v.tail then some ((v.mem s.toNat).toNat : Int) else some eof) =
        some (peeked bytes i) ↔
      0 ≤ i ∧ v.head + i < v.size := by
  have length := holds.length_eq
  have sizeEq := holds.size_eq
  have tail := holds.tail
  rw [vbufSize, if_pos (by omega)] at length
  by_cases negative : i < 0
  · rw [if_pos (by omega), peeked_of_neg negative]
    constructor
    · intro same
      split at same
      · exact absurd (Option.some.inj same) (byte_ne_eof _)
      · cases same
    · intro positive
      omega
  · by_cases queued : v.head + i < v.tail
    · rw [if_pos queued, if_pos (by omega), peeked_of_queued holds (by omega) (by omega),
        if_neg (show ¬ (v.head : Int) + i ≥ v.size by omega)]
      simp only [true_iff]
      omega
    · rw [if_neg queued, peeked_of_behind (by omega)]
      by_cases inside : v.head + i < v.size
      · simp only [if_neg (show ¬ (v.head : Int) + i ≥ v.size by omega), if_neg queued, true_iff]
        omega
      · -- The place wraps round to a cell in front of `head`, outside the queue.
        simp only [if_pos (show (v.head : Int) + i ≥ v.size by omega),
          if_pos (show (v.head : Int) + i - v.size < v.tail by omega)]
        constructor
        · intro same
          exact absurd (Option.some.inj same) (byte_ne_eof _)
        · intro both
          omega

theorem peekat_wrapped (holds : v.Holds capacity bytes) {i : Int}
    (behind : v.tail < v.head) :
    (if v.head + i < v.tail then
        if 0 ≤ v.head + i then some ((v.mem (v.head + i).toNat).toNat : Int) else none
      else
        let s := if v.head + i ≥ v.size then v.head + i - v.size else v.head + i
        if s < v.tail then some ((v.mem s.toNat).toNat : Int) else some eof) =
        some (peeked bytes i) ↔
      if 0 ≤ i then v.size ≤ v.head + i else v.tail ≤ v.head + i := by
  have length := holds.length_eq
  have sizeEq := holds.size_eq
  have head := holds.head
  rw [vbufSize, if_neg (by omega)] at length
  by_cases negative : i < 0
  · rw [if_neg (show ¬ 0 ≤ i by omega), peeked_of_neg negative]
    by_cases low : v.head + i < v.tail
    · rw [if_pos low]
      constructor
      · intro same
        split at same
        · exact absurd (Option.some.inj same) (byte_ne_eof _)
        · cases same
      · intro high
        omega
    · simp only [if_neg low, if_neg (show ¬ (v.head : Int) + i ≥ v.size by omega), true_iff]
      omega
  · rw [if_pos (show 0 ≤ i by omega), if_neg (by omega)]
    by_cases wraps : (v.head : Int) + i ≥ v.size
    · simp only [if_pos wraps]
      by_cases queued : (v.head : Int) + i - v.size < v.tail
      · rw [if_pos queued, peeked_of_queued holds (by omega) (by omega), if_pos wraps]
        simp only [true_iff]
        exact wraps
      · rw [if_neg queued, peeked_of_behind (by omega)]
        simp only [true_iff]
        exact wraps
    · -- A byte in front of the end of the buffer is missed.
      simp only [if_neg wraps, if_neg (show ¬ (v.head : Int) + i < v.tail by omega)]
      rw [peeked_of_queued holds (by omega) (by omega)]
      constructor
      · intro same
        exact absurd (Option.some.inj same).symm (byte_ne_eof _)
      · intro large
        exact absurd large wraps

theorem elim_code_iff (peek : Option Int) (result : Int) :
    peek.elim .undefined .code = Out.code result ↔ peek = some result := by
  cases peek with
  | none => simp
  | some code => simp

theorem serves_peekat (holds : v.Holds capacity bytes) (i : Int) :
    Serves v capacity bytes (.peekat i) := by
  refine ⟨_, _, rfl, ?_, ?_, False.elim⟩
  · intro rest next
    injection next with next
    subst next
    exact holds
  · change _ = Out.code (peeked bytes i) ↔ _
    rw [elim_code_iff]
    unfold vbufPeekat
    simp only [Condition]
    have length := holds.length_eq
    by_cases empty : vbufIsEmpty v = true
    · have nothing : peeked bytes i = eof := by
        rw [holds.isEmpty_iff.mp empty]
        unfold peeked
        split <;> rfl
      simp only [empty, true_or, ite_true, nothing]
    · have apart : v.head ≠ v.tail := fun meets => empty (beq_iff_eq.mpr meets)
      have cast := toInt_le v.capacity
      have same := holds.same
      by_cases large : toInt v.capacity ≤ i
      · simp only [empty, large, false_or, or_true, ite_true, Option.some.injEq, Bool.false_eq_true]
        by_cases negative : i < 0
        · simp only [negative, true_or, peeked_of_neg]
        · by_cases queued : i < bytes.length
          · rw [peeked_of_queued holds (by omega) queued]
            constructor
            · intro same
              exact absurd same.symm (byte_ne_eof _)
            · intro outside
              omega
          · rw [peeked_of_behind (by omega)]
            simp only [true_iff]
            omega
      · simp only [empty, large, false_or, or_self, ite_false, Bool.false_eq_true]
        by_cases before : v.head < v.tail
        · rw [if_pos before]
          exact peekat_unwrapped holds (by omega) before
        · rw [if_neg before]
          exact peekat_wrapped holds (by omega)

end Pttbbs.Common.Vbuf
