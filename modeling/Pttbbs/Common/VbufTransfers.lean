/-
Strings taken from the ring buffer, and transfers from readers and to writers.

A string is taken up to a NUL; a transfer goes on until nothing is missing.  Both are
loops that keep the queue at every turn.
-/

import Pttbbs.Common.VbufReads

namespace Pttbbs.Common.Vbuf

open Pttbbs.Lib

variable {v : VBUF} {capacity : Nat} {bytes : List UInt8}

/-! ### Strings -/

theorem length_getstrTaken_le (sz : Nat) (bytes : List UInt8) :
    (getstrTaken sz bytes).length ≤ sz := by
  induction sz generalizing bytes with
  | zero => exact Nat.le_refl 0
  | succ sz ih =>
      cases bytes with
      | nil => exact Nat.zero_le _
      | cons byte rest =>
          rw [getstrTaken]
          split
          · exact Nat.succ_le_succ (Nat.zero_le sz)
          · exact Nat.succ_le_succ (ih rest)

theorem zero_mem_getstrTaken (sz : Nat) (bytes : List UInt8) :
    0 ∈ getstrTaken sz bytes ↔ 0 ∈ bytes.take sz := by
  induction sz generalizing bytes with
  | zero => exact Iff.rfl
  | succ sz ih =>
      cases bytes with
      | nil => exact Iff.rfl
      | cons byte rest =>
          rw [getstrTaken, List.take_succ_cons]
          by_cases ends : byte = 0
          · rw [if_pos ends, ends]
            exact iff_of_true List.mem_cons_self List.mem_cons_self
          · rw [if_neg ends, List.mem_cons, List.mem_cons, ih]

theorem getstrTaken_of_no_nul {sz : Nat} {bytes : List UInt8} (absent : 0 ∉ bytes.take sz) :
    getstrTaken sz bytes = bytes.take sz := by
  induction sz generalizing bytes with
  | zero => rfl
  | succ sz ih =>
      cases bytes with
      | nil => rfl
      | cons byte rest =>
          rw [List.take_succ_cons, List.mem_cons, not_or] at absent
          rw [getstrTaken, if_neg (Ne.symm absent.1), List.take_succ_cons, ih absent.2]

theorem getstrLoop_spec (holds : v.Holds capacity bytes) (sz : Nat) :
    ∃ next left, getstrLoop sz v = (next, getstrTaken sz bytes, left) ∧
      next.Holds capacity (bytes.drop (getstrTaken sz bytes).length) ∧
      (left = none ↔ 0 ∈ getstrTaken sz bytes) ∧
      ∀ count, left = some count → (count = 0 ↔ bytes.length + 1 = sz) := by
  induction sz generalizing v bytes with
  | zero =>
      refine ⟨v, some (2 ^ 64 - 1), rfl, holds, by simp [getstrTaken], ?_⟩
      intro count same
      injection same with same
      omega
  | succ sz ih =>
      cases bytes with
      | nil =>
          refine ⟨v, some sz, ?_, holds, by simp [getstrTaken], ?_⟩
          · rw [getstrLoop, if_pos (holds.isEmpty_iff.mpr rfl)]
            rfl
          · intro count same
            injection same with same
            simp only [List.length_nil]
            omega
      | cons byte rest =>
          have nonempty : ¬ vbufIsEmpty v = true := fun empty =>
            List.cons_ne_nil byte rest (holds.isEmpty_iff.mp empty)
          have popped := vbufPop_holds holds
          have read : UInt8.ofNat (vbufPop v).2.toNat = byte := by
            change UInt8.ofNat (vbufPeek v).toNat = byte
            rw [vbufPeek_eq holds]
            exact UInt8.ofNat_toNat
          simp only [getstrLoop, if_neg nonempty, read, getstrTaken]
          by_cases ends : byte = 0
          · simp only [if_pos ends]
            refine ⟨_, none, rfl, popped, ?_, ?_⟩
            · rw [ends]
              exact iff_of_true rfl List.mem_cons_self
            · intro count impossible
              cases impossible
          · obtain ⟨next, left, loop, nextHolds, nul, pads⟩ := ih popped
            simp only [List.tail_cons] at loop nextHolds nul pads
            simp only [if_neg ends, loop]
            refine ⟨next, left, rfl, nextHolds, ?_, ?_⟩
            · rw [nul, List.mem_cons, or_iff_right (Ne.symm ends)]
            · intro count same
              rw [pads count same, List.length_cons, Nat.add_right_cancel_iff]

theorem serves_getstr (holds : v.Holds capacity bytes) (sz : Nat) :
    Serves v capacity bytes (.getstr sz) := by
  by_cases empty : vbufIsEmpty v = true
  · have nothing := holds.isEmpty_iff.mp empty
    subst nothing
    refine ⟨v, .string none, ?_, ?_, ?_, fun _refused => rfl⟩
    · simp only [step, vbufGetstr, if_pos empty]
    · intro rest next
      simp only [fifoNext, List.drop_nil] at next
      split at next
      · cases next
      · injection next with next
        subst next
        exact holds
    · simp only [OutRight, ite_true, Condition, empty, true_or]
  · have nonempty : bytes ≠ [] := mt holds.isEmpty_iff.mpr empty
    have positive := List.length_pos_iff.mpr nonempty
    obtain ⟨next, left, loop, nextHolds, nul, pads⟩ := getstrLoop_spec holds sz
    have kept : ∀ rest, fifoNext capacity bytes (.getstr sz) = some rest →
        next.Holds capacity rest := by
      intro rest same
      simp only [fifoNext] at same
      split at same
      · cases same
      · injection same with same
        exact same ▸ nextHolds
    have bound := length_getstrTaken_le sz bytes
    cases left with
    | none =>
        have ends := nul.mp rfl
        refine ⟨next, .string (some (getstrTaken sz bytes)), ?_, kept, ?_, fun is => absurd is empty⟩
        · simp only [step, vbufGetstr, if_neg empty, loop]
        · simp only [OutRight, if_neg nonempty, if_pos ends, true_and, bound, Condition, true_iff]
          rw [holds.queue]
          exact Or.inr (Or.inl ((zero_mem_getstrTaken sz bytes).mp ends))
    | some count =>
        have absent : 0 ∉ getstrTaken sz bytes := fun ends => by
          have impossible := nul.mpr ends
          cases impossible
        have noNul : 0 ∉ bytes.take sz := mt (zero_mem_getstrTaken sz bytes).mpr absent
        have taken := getstrTaken_of_no_nul noNul
        have takenLength : (getstrTaken sz bytes).length = min sz bytes.length := by
          rw [taken, List.length_take]
        have condition : Condition v (.getstr sz) ↔ count = 0 := by
          rw [pads count rfl]
          simp only [Condition, holds.queue, holds.length_eq, noNul, false_or,
            eq_false empty]
        refine ⟨next, .string (some (if count = 0 then getstrTaken sz bytes ++ [0]
          else (getstrTaken sz bytes).dropLast ++ [0])), ?_, kept, ?_, fun is => absurd is empty⟩
        · simp only [step, vbufGetstr, if_neg empty, loop]
        · rw [condition]
          simp only [OutRight, if_neg nonempty, if_neg absent]
          by_cases pad : count = 0
          · have fits := (pads count rfl).mp pad
            rw [if_pos pad]
            refine iff_of_true ⟨rfl, ?_⟩ pad
            rw [List.length_append, List.length_singleton]
            omega
          · -- The NUL has taken the place of a byte, or there was no place left for it.
            rw [if_neg pad]
            refine iff_of_false ?_ pad
            rintro ⟨same, within⟩
            injection same with same
            injection same with same
            have lengths := congrArg List.length same
            rw [List.length_append, List.length_append, List.length_dropLast,
              List.length_singleton] at lengths
            rw [List.length_append, List.length_singleton] at within
            omega

/-! ### Transfers -/

theorem offered_eq (holds : v.Holds capacity bytes) {sz : Nat} (queued : sz ≤ bytes.length) :
    cells v.mem v.head (min (tailSz v) sz) ++ cells v.mem 0 (sz - min (tailSz v) sz) =
      bytes.take sz := by
  have ends := tailSz_cases holds
  rw [holds.cells_take (by omega) (by omega)]
  by_cases whole : sz ≤ tailSz v
  · rw [Nat.min_eq_right whole, Nat.sub_self, cells_zero, List.append_nil]
  · have wraps : v.head + tailSz v = v.size := by omega
    rw [Nat.min_eq_left (by omega), holds.cells_drop (by omega) wraps, ← List.take_add,
      Nat.add_sub_cancel' (by omega)]

theorem transfer_cons {isMin : Bool} {sz rw moved : Nat} {answers : List (Option Nat)}
    {failed : Bool} (goes : transfer isMin sz (some rw :: answers) = some (moved, failed)) :
    rw ≤ sz ∧
      ((sz - rw > 0 ∧ isMin = false) ∧
          (∃ later, transfer isMin (sz - rw) answers = some (later, failed) ∧
            moved = rw + later) ∨
        ¬ (sz - rw > 0 ∧ isMin = false) ∧ moved = rw ∧ failed = false) := by
  simp only [transfer] at goes
  split at goes
  case isTrue => cases goes
  case isFalse within =>
      refine ⟨Nat.le_of_not_lt within, ?_⟩
      split at goes
      case isTrue more =>
          obtain ⟨⟨later, ended⟩, rest, same⟩ := Option.map_eq_some_iff.mp goes
          cases same
          exact Or.inl ⟨more, later, rest, rfl⟩
      case isFalse done =>
          cases goes
          exact Or.inr ⟨done, rfl, rfl⟩

theorem generalWriteLoop_spec (isMin : Bool) (holds : v.Holds capacity bytes) {sz : Nat}
    (queued : sz ≤ bytes.length) {writer : List (Option Nat)} {moved : Nat} {failed : Bool}
    (goes : transfer isMin sz writer = some (moved, failed)) :
    ∃ next, generalWriteLoop isMin 0 v sz writer =
        some (next, if failed then -1 else 0, bytes.take moved) ∧
      next.Holds capacity (bytes.drop moved) := by
  induction writer generalizing v bytes sz moved with
  | nil => cases goes
  | cons answer writer ih =>
      cases answer with
      | none =>
          cases goes
          exact ⟨v, rfl, holds⟩
      | some rw =>
          obtain ⟨within, turns⟩ := transfer_cons goes
          have bound := holds.length_le
          have sizeEq := holds.size_eq
          have head := holds.head
          have taken : (bytes.take sz).take rw = bytes.take rw := by
            rw [List.take_take, Nat.min_eq_left within]
          have turn := holds.advance (show rw ≤ bytes.length by omega)
            (VBUF.mod_of_lt_two (by omega))
          simp only [generalWriteLoop, if_neg (Nat.not_lt.mpr within), offered_eq holds queued,
            taken]
          obtain ⟨more, later, rest, rfl⟩ | ⟨done, rfl, rfl⟩ := turns
          · have queuedLater : sz - rw ≤ (bytes.drop rw).length := by
              rw [List.length_drop]
              omega
            obtain ⟨next, loop, nextHolds⟩ := ih turn queuedLater rest
            rw [if_pos more, loop, List.take_add]
            rw [List.drop_drop] at nextHolds
            exact ⟨next, rfl, nextHolds⟩
          · rw [if_neg done]
            exact ⟨_, rfl, turn⟩

theorem stored_holds (holds : v.Holds capacity bytes) {sz : Nat} {added : List UInt8}
    (room : bytes.length + sz ≤ capacity) (within : added.length ≤ sz) :
    ({ v with
        mem := copyTo (copyTo v.mem v.tail (added.take (min (headSz v) sz))) 0
          (added.drop (min (headSz v) sz))
        tail := if v.tail + added.length ≥ v.size then v.tail + added.length - v.size
          else v.tail + added.length } : VBUF).Holds capacity (bytes ++ added) := by
  have ends := headSz_cases holds
  have sizeEq := holds.size_eq
  have tail := holds.tail
  have bound := holds.length_le
  by_cases whole : added.length ≤ min (headSz v) sz
  · rw [List.take_of_length_le whole, List.drop_of_length_le whole, copyTo_nil]
    apply holds.extend
    · omega
    · omega
    · exact VBUF.mod_of_lt_two (by omega)
  · have first : min (headSz v) sz = headSz v := by omega
    have takenLength : (added.take (headSz v)).length = headSz v := by
      rw [List.length_take]
      omega
    have front : ({ v with mem := copyTo v.mem v.tail (added.take (headSz v)), tail := 0 } :
        VBUF).Holds capacity (bytes ++ added.take (headSz v)) := by
      apply holds.extend
      · omega
      · omega
      · rw [takenLength, show v.tail + headSz v = v.size by omega, Nat.mod_self]
    have dropped : (added.drop (headSz v)).length = added.length - headSz v := List.length_drop
    have neighbours : 0 + (added.drop (headSz v)).length ≤ v.size := by omega
    have fits : (bytes ++ added.take (headSz v)).length + (added.drop (headSz v)).length ≤
        capacity := by
      rw [List.length_append]
      omega
    have goes : (0 + (added.drop (headSz v)).length) % v.size =
        v.tail + added.length - v.size := by
      rw [Nat.mod_eq_of_lt (by omega)]
      omega
    have back := front.extend neighbours fits goes
    rw [List.append_assoc, List.take_append_drop] at back
    rw [first, if_pos (by omega)]
    exact back

theorem generalReadLoop_spec (isMin : Bool) (holds : v.Holds capacity bytes) {sz : Nat}
    (room : bytes.length + sz ≤ capacity) {reader : List (Option (List UInt8))} {moved : Nat}
    {failed : Bool} (goes : transfer isMin sz (amounts reader) = some (moved, failed)) :
    ∃ next, generalReadLoop isMin 0 v sz reader = some (next, if failed then -1 else 0) ∧
      next.Holds capacity (bytes ++ (handed reader).take moved) := by
  induction reader generalizing v bytes sz moved with
  | nil => cases goes
  | cons answer reader ih =>
      cases answer with
      | none =>
          cases goes
          refine ⟨v, rfl, ?_⟩
          rw [List.take_zero, List.append_nil]
          exact holds
      | some added =>
          have handedEq : handed (some added :: reader) = added ++ handed reader := rfl
          obtain ⟨within, turns⟩ := transfer_cons goes
          have turn := stored_holds holds room within
          simp only [generalReadLoop, if_neg (Nat.not_lt.mpr within), handedEq]
          obtain ⟨more, later, rest, rfl⟩ | ⟨done, rfl, rfl⟩ := turns
          · have roomLater : (bytes ++ added).length + (sz - added.length) ≤ capacity := by
              rw [List.length_append]
              omega
            obtain ⟨next, loop, nextHolds⟩ := ih turn roomLater rest
            rw [if_pos more, loop, List.take_length_add_append, ← List.append_assoc]
            exact ⟨next, rfl, nextHolds⟩
          · rw [if_neg done, List.take_left]
            exact ⟨_, rfl, turn⟩

theorem transfer_moved_iff {isMin : Bool} {sz : Nat} {answers : List (Option Nat)} {moved : Nat}
    {failed : Bool} (positive : 0 < sz)
    (goes : transfer isMin sz answers = some (moved, failed)) :
    moved = 0 ↔ quiet (if isMin then answers.take 1 else answers) = true := by
  induction answers generalizing sz moved with
  | nil => cases goes
  | cons answer answers ih =>
      cases answer with
      | none =>
          cases goes
          cases isMin <;> exact iff_of_true rfl rfl
      | some rw =>
          obtain ⟨within, turns⟩ := transfer_cons goes
          cases isMin with
          | true =>
              obtain ⟨more, -⟩ | ⟨-, rfl, -⟩ := turns
              · cases more.2
              · simp [quiet]
          | false =>
              simp only [Bool.false_eq_true, ite_false, quiet, Bool.and_eq_true, beq_iff_eq]
                at ih ⊢
              obtain ⟨more, later, rest, rfl⟩ | ⟨done, rfl, -⟩ := turns
              · rw [← ih more.1 rest]
                omega
              · -- All that was asked for has been moved, at least one byte.
                have all : ¬ sz - moved > 0 := fun more => done ⟨more, rfl⟩
                omega

theorem movedCode_iff (moved : Nat) (failed : Bool) :
    (if failed then -1 else 0) = movedCode (moved, failed) ↔ moved = 0 := by
  cases moved with
  | zero => cases failed <;> simp [movedCode]
  | succ moved =>
      cases failed <;> simp only [movedCode, Bool.false_eq_true, ite_true, ite_false] <;> omega

theorem asked_pos {sz : Int} {all : Nat} (served : ¬ TurnedDown sz all) :
    0 < (asked sz all).toNat ∧ (asked sz all).toNat ≤ all := by
  unfold TurnedDown at served
  omega

theorem lookedAt_eq (sz : Int) (answers : List (Option Nat)) :
    lookedAt sz answers = if (sz == rwszMin) = true then answers.take 1 else answers := by
  unfold lookedAt
  by_cases least : sz = rwszMin
  · simp [least]
  · simp [least]

theorem serves_generalWrite (holds : v.Holds capacity bytes) (sz : Int)
    {writer : List (Option Nat)} {result : Nat × Bool}
    (returns : moves sz bytes.length writer = some result) :
    Serves v capacity bytes (.generalWrite sz writer) := by
  obtain ⟨moved, failed⟩ := result
  have length := holds.length_eq
  have goes := returns
  unfold moves at goes
  by_cases down : TurnedDown sz bytes.length
  · rw [if_pos down] at goes
    cases goes
    refine ⟨v, .block 0 [], ?_, ?_, ?_, fun _refused => rfl⟩
    · have test : asked sz (vbufSize v) < 1 ∨ (vbufSize v : Int) < asked sz (vbufSize v) := by
        rw [length]
        exact down
      simp only [step, vbufGeneralWrite]
      rw [show (if sz = rwszAll ∨ sz = rwszMin then (vbufSize v : Int) else sz) =
        asked sz (vbufSize v) from rfl, if_pos test]
      rfl
    · intro rest next
      simp only [fifoNext, returns, Option.map_some, List.drop_zero] at next
      injection next with next
      exact next ▸ holds
    · simp only [OutRight, returns, Condition, length, down, true_or, iff_true]
      exact ⟨_, rfl, rfl⟩
  · rw [if_neg down] at goes
    have amount := asked_pos down
    obtain ⟨next, loop, nextHolds⟩ := generalWriteLoop_spec _ holds amount.2 goes
    refine ⟨next, .block (if failed then -1 else 0) (bytes.take moved), ?_, ?_, ?_, ?_⟩
    · have test : ¬ (asked sz (vbufSize v) < 1 ∨ (vbufSize v : Int) < asked sz (vbufSize v)) := by
        rw [length]
        exact down
      simp only [step, vbufGeneralWrite]
      rw [show (if sz = rwszAll ∨ sz = rwszMin then (vbufSize v : Int) else sz) =
        asked sz (vbufSize v) from rfl, if_neg test, length, loop]
      rfl
    · intro rest same
      simp only [fifoNext, returns, Option.map_some] at same
      injection same with same
      exact same ▸ nextHolds
    · simp only [OutRight, returns, Condition, length, down, false_or, lookedAt_eq]
      rw [← transfer_moved_iff amount.1 goes, ← movedCode_iff moved failed]
      simp
    · intro refused
      rw [Refused, length] at refused
      exact absurd refused down

theorem serves_generalRead (holds : v.Holds capacity bytes) (sz : Int)
    {reader : List (Option (List UInt8))} {result : Nat × Bool}
    (returns : moves sz (capacity - bytes.length) (amounts reader) = some result) :
    Serves v capacity bytes (.generalRead sz reader) := by
  obtain ⟨moved, failed⟩ := result
  have space := holds.space_eq
  have bound := holds.length_le
  have goes := returns
  unfold moves at goes
  by_cases down : TurnedDown sz (capacity - bytes.length)
  · rw [if_pos down] at goes
    cases goes
    refine ⟨v, .code 0, ?_, ?_, ?_, fun _refused => rfl⟩
    · have test : asked sz (vbufSpace v) < 1 ∨ (vbufSpace v : Int) < asked sz (vbufSpace v) := by
        rw [space]
        exact down
      simp only [step, vbufGeneralRead]
      rw [show (if sz = rwszAll ∨ sz = rwszMin then (vbufSpace v : Int) else sz) =
        asked sz (vbufSpace v) from rfl, if_pos test]
      rfl
    · intro rest next
      simp only [fifoNext, returns, Option.map_some, List.take_zero, List.append_nil] at next
      injection next with next
      exact next ▸ holds
    · simp only [OutRight, returns, Condition, space, down, true_or, iff_true]
      exact ⟨_, rfl, rfl⟩
  · rw [if_neg down] at goes
    have amount := asked_pos down
    obtain ⟨next, loop, nextHolds⟩ := generalReadLoop_spec _ holds (by omega) goes
    refine ⟨next, .code (if failed then -1 else 0), ?_, ?_, ?_, ?_⟩
    · have test : ¬ (asked sz (vbufSpace v) < 1 ∨
          (vbufSpace v : Int) < asked sz (vbufSpace v)) := by
        rw [space]
        exact down
      simp only [step, vbufGeneralRead]
      rw [show (if sz = rwszAll ∨ sz = rwszMin then (vbufSpace v : Int) else sz) =
        asked sz (vbufSpace v) from rfl, if_neg test, space, loop]
      rfl
    · intro rest same
      simp only [fifoNext, returns, Option.map_some] at same
      injection same with same
      exact same ▸ nextHolds
    · simp only [OutRight, returns, Condition, space, down, false_or, lookedAt_eq]
      rw [← transfer_moved_iff amount.1 goes, ← movedCode_iff moved failed]
      simp
    · intro refused
      rw [Refused, space] at refused
      exact absurd refused down

end Pttbbs.Common.Vbuf
