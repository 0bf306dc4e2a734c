/-
Deleting records from a file of fixed-size records.

The sizes that are held in an `int` are wrapped to 32 bits.  `size_t` and `off_t` are taken as
the integers they hold: the sizes of a file and the offsets within it.
-/

import Pttbbs.Common.Money
import Pttbbs.Lib.FileBytes

namespace Pttbbs.Common.Records

open Pttbbs.Lib
open Pttbbs.Common.Money (wrap wrap_of_fits intMax intMin)

def bufSize : Nat := 512

/-- `lseek` with SEEK_SET: the position of the descriptor and the value returned. -/
def lseek (position : Nat) (offset : Int) : Nat × Int :=
  if offset < 0 then (position, -1) else (offset.toNat, offset)

def ftruncate (file : Bytes) (length : Int) : Bytes :=
  if length < 0 then file else resize file length.toNat

/-- `record_callback_t` with its second argument. -/
abbrev RecordCallback := Bytes → Bool

def deleteRecord2 (file : Bytes) (size : Nat) (id : Int) (canDelete : Option RecordCallback) :
    Bytes × Int :=
  let offset := size * (id - 1)
  let locksize := wrap (file.length - offset)
  let readsize := wrap (locksize - size * 1)
  if id < 1 then (file, -1)
  else if locksize < 0 then (file, -1)
  else
    let (source, err) :=
      match canDelete with
      | some accepts =>
          let (position, reached) := lseek 0 offset
          let record := pread file position size
          if reached ≠ offset then (position, -1)
          else if record.length ≠ size then (position + record.length, -1)
          else if accepts record = false then (position + record.length, -1)
          else (position + record.length, 0)
      | none =>
          let (position, reached) := lseek 0 (offset + size * 1)
          (position, if reached ≠ offset then -1 else 0)
    let (target, reached) := lseek 0 offset
    let err : Int := if reached ≠ offset then -1 else err
    if err = 0 then
      let copy := copyBlocks bufSize file source target readsize.toNat
      (ftruncate copy (file.length - size * 1), err)
    else (file, err)

def deleteRecords (file : Bytes) (size : Nat) (id : Int) (num : Nat) : Bytes × Int :=
  let offset := size * (id - 1)
  let locksize := wrap (file.length - offset)
  let readsize := wrap (locksize - size * num)
  if locksize < 0 then (file, -1)
  else
    let copy :=
      if readsize > 0 then
        copyBlocks bufSize file (lseek 0 (offset + size * num)).1 (lseek 0 offset).1
          readsize.toNat
      else file
    (ftruncate copy (file.length - size * num), 0)

def deleteRecord (file : Bytes) (size : Nat) (id : Int) : Bytes × Int :=
  deleteRecords file size id 1

/-! ### Files of whole records -/

structure RecordFile (size : Nat) where
  records : List Bytes
  whole : ∀ record ∈ records, record.length = size

namespace RecordFile

variable {size : Nat}

def bytes (file : RecordFile size) : Bytes := file.records.flatten

theorem flatten_length {records : List Bytes} (whole : ∀ record ∈ records, record.length = size) :
    records.flatten.length = records.length * size := by
  induction records with
  | nil => simp
  | cons record rest ih =>
      rw [List.flatten_cons, List.length_append, whole record List.mem_cons_self,
        ih fun other member => whole other (List.mem_cons_of_mem _ member), List.length_cons]
      ring

theorem flatten_take {records : List Bytes} (whole : ∀ record ∈ records, record.length = size)
    (count : Nat) : (records.take count).flatten = records.flatten.take (count * size) := by
  induction records generalizing count with
  | nil => simp
  | cons record rest ih =>
      cases count with
      | zero => simp
      | succ count =>
          have width : (count + 1) * size = record.length + count * size := by
            rw [whole record List.mem_cons_self, Nat.succ_mul, Nat.add_comm]
          rw [List.take_succ_cons, List.flatten_cons, List.flatten_cons, width,
            List.take_length_add_append,
            ih fun other member => whole other (List.mem_cons_of_mem _ member)]

theorem flatten_drop {records : List Bytes} (whole : ∀ record ∈ records, record.length = size)
    (count : Nat) : (records.drop count).flatten = records.flatten.drop (count * size) := by
  have split := congrArg List.flatten (List.take_append_drop count records)
  rw [List.flatten_append, flatten_take whole] at split
  have same := split.trans (List.take_append_drop (count * size) records.flatten).symm
  exact List.append_cancel_left same

theorem bytes_length (file : RecordFile size) :
    file.bytes.length = file.records.length * size :=
  flatten_length file.whole

def without (file : RecordFile size) (id num : Nat) : Bytes :=
  (file.records.take (id - 1) ++ file.records.drop (id - 1 + num)).flatten

theorem without_eq (file : RecordFile size) (id num : Nat) :
    file.without id num =
      file.bytes.take ((id - 1) * size) ++ file.bytes.drop ((id - 1) * size + num * size) := by
  rw [without, List.flatten_append, flatten_take file.whole, flatten_drop file.whole,
    Nat.add_mul, bytes]

end RecordFile

/-- What a deletion may do to a file: refuse and leave it as it is, or remove the records. -/
def Deletes {size : Nat} (file : RecordFile size) (id num : Nat) (result : Bytes × Int) : Prop :=
  (result.2 ≠ 0 ∧ result.1 = file.bytes) ∨ (result.2 = 0 ∧ result.1 = file.without id num)

/-! ### The tail moved down -/

theorem wrap_wrap_sub (left right : Int) : wrap (wrap left - right) = wrap (left - right) :=
  Int.bmod_sub_bmod

theorem wrap_le (value : Int) : wrap value ≤ intMax := by
  have bound := Int.bmod_le (x := value) (m := 4294967296) (by decide)
  unfold wrap intMax
  omega

def moveDown (file : Bytes) (offset range : Nat) : Bytes :=
  let readsize := wrap (file.length - offset - range)
  ftruncate (copyBlocks bufSize file (offset + range) offset readsize.toNat)
    (file.length - range)

theorem ftruncate_sub (file : Bytes) {total range : Nat} (within : range ≤ total) :
    ftruncate file (total - range) = resize file (total - range) := by
  have same : (total : Int) - range = ((total - range : Nat) : Int) := by omega
  rw [ftruncate, if_neg (by omega), same, Int.toNat_natCast]

section Bytes

variable {file : Bytes} {offset range : Nat}

theorem moveDown_within (within : offset + range ≤ file.length)
    (small : (file.length - offset - range : Int) ≤ intMax) :
    moveDown file offset range = file.take offset ++ file.drop (offset + range) := by
  obtain ⟨count, moved, most, least, _⟩ :=
    @copyBlocks_eq bufSize (by decide) file (offset + range) offset
      (wrap (file.length - offset - range)).toNat (by omega) within
  have exact' : wrap (file.length - offset - range) = file.length - offset - range :=
    wrap_of_fits (by unfold intMin; omega) small
  rw [exact'] at moved least
  have all : count = file.length - (offset + range) := by omega
  have rest : pread file (offset + range) count = file.drop (offset + range) := by
    rw [pread, all, ← List.length_drop, List.take_length]
  have width :
      (file.take offset ++ file.drop (offset + range)).length = file.length - range := by
    rw [List.length_append, List.length_take, List.length_drop]
    omega
  unfold moveDown
  simp only [exact']
  rw [moved, ftruncate_sub _ (by omega), copied, rest, resize_of_le, List.take_left' width]
  rw [List.length_append, width]
  omega

theorem moveDown_beyond (beyond : file.length < offset + range) :
    moveDown file offset range = ftruncate file (file.length - range) := by
  simp only [moveDown, copyBlocks_behind beyond.le]

/-- A tail that does not fit into an `int` is copied in part: the last byte of the file is the
one that has been there before. -/
theorem moveDown_large (within : offset + range ≤ file.length)
    (large : intMax < (file.length - offset - range : Int)) :
    (moveDown file offset range)[file.length - range - 1]? = file[file.length - range - 1]? := by
  obtain ⟨count, moved, most, least, nothing, less⟩ :=
    @copyBlocks_eq bufSize (by decide) file (offset + range) offset
      (wrap (file.length - offset - range)).toNat (by omega) within
  have bound := wrap_le (file.length - offset - range)
  have zero : (0 : Int) ≤ intMax := by decide
  have far : wrap (file.length - offset - range) + 4294967296 ≤
      (file.length - offset - range : Int) ∨ wrap (file.length - offset - range) ≤ 0 := by
    unfold wrap intMax at *
    rw [Int.bmod_def]
    omega
  have left : offset + count ≤ file.length - range - 1 := by
    rcases far with far | none
    · unfold bufSize at less
      omega
    · have stays := nothing (by omega)
      omega
  have width : (file.take offset ++ pread file (offset + range) count).length =
      offset + count := by
    rw [List.length_append, List.length_take, pread_length]
    omega
  unfold moveDown
  simp only [moved]
  rw [ftruncate_sub _ (by omega), resize_of_le, List.getElem?_take_of_lt (by omega), copied,
    List.getElem?_append_right (by rw [width]; exact left), width, List.getElem?_drop]
  · congr 1
    omega
  · rw [copied, List.length_append, width, List.length_drop]
    omega

theorem moveDown_length_ne (beyond : file.length < offset + range) (positive : 0 < range)
    (reached : offset < file.length ∨ range ≤ file.length) :
    (moveDown file offset range).length ≠ min offset file.length := by
  rw [moveDown_beyond beyond]
  by_cases cut : range ≤ file.length
  · rw [ftruncate_sub _ cut, resize_length]
    omega
  · rw [ftruncate, if_pos (by omega), Nat.min_eq_left (by omega)]
    omega

end Bytes

/-! ### Whole records moved down -/

/-- The range ends within the file and what follows it fits into an `int`, or there is nothing
from the range on and the file has fewer records than the range. -/
def Moves (size count id num : Nat) : Prop :=
  (id - 1 + num ≤ count ∧ ((count - (id - 1) - num) * size : Nat) ≤ intMax) ∨
    (count < id ∧ count < num)

def bump (record : Bytes) : Bytes :=
  record.dropLast ++ [record.getLastD 0 + 1]

theorem bump_length {record : Bytes} (filled : record ≠ []) :
    (bump record).length = record.length := by
  have positive := List.length_pos_iff.mpr filled
  rw [bump, List.length_append, List.length_dropLast, List.length_singleton]
  omega

section Records

variable {size : Nat}

def marked (record : Bytes) (width : record.length = size) (positive : 0 < size) (count : Nat) :
    RecordFile size where
  records := List.replicate (count - 1) record ++ [bump record]
  whole other member := by
    rcases List.mem_append.mp member with same | last
    · rw [List.eq_of_mem_replicate same, width]
    · rw [List.mem_singleton.mp last, bump_length, width]
      exact List.ne_nil_of_length_pos (by omega)

variable {file : RecordFile size} {count id num : Nat}

theorem offsets_within (within : id - 1 + num ≤ count) :
    (id - 1) * size + num * size ≤ count * size ∧
      count * size - (id - 1) * size - num * size = (count - (id - 1) - num) * size := by
  have grown := Nat.mul_le_mul_right size within
  constructor
  · rw [← Nat.add_mul]
    exact grown
  · rw [Nat.sub_mul (count - (id - 1)), Nat.sub_mul count]

theorem moveDown_without (counted : file.records.length = count) (positive : 0 < size)
    (moves : Moves size count id num) :
    moveDown file.bytes ((id - 1) * size) (num * size) = file.without id num := by
  have width := file.bytes_length
  rw [counted] at width
  rw [file.without_eq]
  rcases moves with ⟨within, small⟩ | ⟨beyond, fewer⟩
  · obtain ⟨inside, tail⟩ := @offsets_within size _ _ _ within
    refine moveDown_within (by omega) ?_
    rw [← tail] at small
    omega
  · have start : count * size ≤ (id - 1) * size := Nat.mul_le_mul_right size (by omega)
    have shorter : count * size < num * size := Nat.mul_lt_mul_of_pos_right fewer positive
    rw [List.take_of_length_le (by omega), List.drop_eq_nil_of_le (by omega), List.append_nil,
      moveDown_beyond (by omega), ftruncate, if_pos (by omega)]

theorem getElem?_last {front record : Bytes} (filled : record ≠ []) :
    (front ++ record)[(front ++ record).length - 1]? = some (record.getLastD 0) := by
  rw [← List.getLast?_eq_getElem?, List.getLast?_append_of_ne_nil _ filled,
    List.getLast?_eq_some_getLast filled, List.getLastD_eq_getLast?,
    List.getLast?_eq_some_getLast filled, Option.getD_some]

section Marked

variable {record : Bytes} (width : record.length = size) (positive : 0 < size)

include width positive in
theorem filled_of_width : record ≠ [] :=
  List.ne_nil_of_length_pos (by omega)

theorem marked_bytes_length (some' : 0 < count) :
    (marked record width positive count).bytes.length = count * size := by
  rw [RecordFile.bytes_length]
  congr 1
  simp only [marked, List.length_append, List.length_replicate, List.length_singleton]
  omega

theorem marked_kept {kept : Nat} (some' : 0 < kept) (less : kept < count) :
    (marked record width positive count).bytes[kept * size - 1]? =
      some (record.getLastD 0) := by
  have filled := filled_of_width width positive
  have front :
      (marked record width positive count).bytes.take (kept * size) =
        (List.replicate (kept - 1) record).flatten ++ record := by
    have again : kept = kept - 1 + 1 := by omega
    rw [RecordFile.bytes, ← RecordFile.flatten_take (marked record width positive count).whole]
    simp only [marked]
    rw [List.take_append_of_le_length (by rw [List.length_replicate]; omega),
      List.take_replicate, Nat.min_eq_left (by omega), again, List.replicate_succ',
      List.flatten_append, List.flatten_singleton, Nat.add_sub_cancel]
  have length := congrArg List.length front
  rw [List.length_take, marked_bytes_length width positive (by omega),
    Nat.min_eq_left (Nat.mul_le_mul_right size less.le)] at length
  have last := @getElem?_last (List.replicate (kept - 1) record).flatten _ filled
  have reached : 0 < kept * size := Nat.mul_pos some' positive
  rw [← front, List.length_take, marked_bytes_length width positive (by omega),
    Nat.min_eq_left (Nat.mul_le_mul_right size less.le),
    List.getElem?_take_of_lt (by omega)] at last
  exact last

theorem marked_last (some' : 0 < count) :
    (marked record width positive count).bytes[count * size - 1]? =
      some (record.getLastD 0 + 1) := by
  have filled := filled_of_width width positive
  have last :=
    @getElem?_last (List.replicate (count - 1) record).flatten (bump record)
      (by rw [bump]; exact List.append_ne_nil_of_right_ne_nil _ (List.cons_ne_nil _ _))
  have split :
      (marked record width positive count).bytes =
        (List.replicate (count - 1) record).flatten ++ bump record := by
    simp only [RecordFile.bytes, marked, List.flatten_append, List.flatten_singleton]
  rw [← split, marked_bytes_length width positive some', bump, List.getLastD_concat] at last
  exact last

theorem moveDown_marked (first : 1 ≤ id) (some' : 1 ≤ num) (fails : ¬ Moves size count id num) :
    moveDown (marked record width positive count).bytes ((id - 1) * size) (num * size) ≠
      (marked record width positive count).without id num := by
  have any : 0 < count := by
    by_contra none
    exact fails (Or.inr ⟨by omega, by omega⟩)
  have length := @marked_bytes_length _ _ record width positive any
  have range : 0 < num * size := Nat.mul_pos some' positive
  rw [RecordFile.without_eq]
  intro same
  by_cases within : id - 1 + num ≤ count
  · obtain ⟨inside, tail⟩ := @offsets_within size _ _ _ within
    have large : intMax < ((count - (id - 1) - num) * size : Nat) := by
      by_contra small
      exact fails (Or.inl ⟨within, by omega⟩)
    have kept : 0 < count - num := by
      by_contra none
      have nothing : count - (id - 1) - num = 0 := by omega
      rw [nothing, Nat.zero_mul] at large
      exact absurd large (by decide)
    rw [← tail] at large
    have zero : (0 : Int) ≤ intMax := by decide
    have old :=
      @moveDown_large (marked record width positive count).bytes ((id - 1) * size) (num * size)
        (by omega) (by omega)
    have cut : count * size - num * size = (count - num) * size := (Nat.sub_mul ..).symm
    rw [same, length, cut, marked_kept width positive kept (by omega), ← cut,
      List.getElem?_append_right (by rw [List.length_take]; omega), List.length_take,
      length, Nat.min_eq_left (by omega), List.getElem?_drop] at old
    have place :
        (id - 1) * size + num * size + (count * size - num * size - 1 - (id - 1) * size) =
          count * size - 1 := by
      omega
    rw [place, marked_last width positive any] at old
    have grown := Option.some.inj old
    simp at grown
  · have beyond : count * size < (id - 1) * size + num * size := by
      rw [← Nat.add_mul]
      exact Nat.mul_lt_mul_of_pos_right (by omega) positive
    have shortened := congrArg List.length same
    rw [List.drop_eq_nil_of_le (by omega), List.append_nil, List.length_take] at shortened
    refine moveDown_length_ne (by omega) range ?_ shortened
    rw [length]
    by_cases reached : id ≤ count
    · exact Or.inl (Nat.mul_lt_mul_of_pos_right (by omega) positive)
    · refine Or.inr (Nat.mul_le_mul_right size ?_)
      by_contra fewer
      exact fails (Or.inr ⟨by omega, by omega⟩)

end Marked

end Records

/-! ### The two functions -/

section Functions

variable {size : Nat}

theorem offset_eq (size : Nat) {id : Nat} (first : 1 ≤ id) :
    (size : Int) * ((id : Int) - 1) = ((id - 1) * size : Nat) := by
  rw [Nat.cast_mul, Nat.cast_sub first, Int.mul_comm, Nat.cast_one]

theorem lseek_natCast (position offset : Nat) :
    lseek position (offset : Int) = (offset, (offset : Int)) := by
  rw [lseek, if_neg (by omega), Int.toNat_natCast]

/-- The stretch from the record on has a negative length as an `int`. -/
def Refuses (size count id : Nat) : Prop :=
  wrap ((count * size : Nat) - ((id - 1) * size : Nat)) < 0

theorem deleteRecords_eq (file : Bytes) {id : Nat} (first : 1 ≤ id) (num : Nat) :
    deleteRecords file size id num =
      if wrap (file.length - ((id - 1) * size : Nat)) < 0 then (file, -1)
      else (moveDown file ((id - 1) * size) (num * size), 0) := by
  have range : (size : Int) * num = ((num * size : Nat) : Int) := by
    rw [Nat.cast_mul, Int.mul_comm]
  have copied :
      (if wrap (file.length - ((id - 1) * size : Nat) - (num * size : Nat)) > 0 then
        copyBlocks bufSize file ((id - 1) * size + num * size) ((id - 1) * size)
          (wrap (file.length - ((id - 1) * size : Nat) - (num * size : Nat))).toNat
      else file) =
        copyBlocks bufSize file ((id - 1) * size + num * size) ((id - 1) * size)
          (wrap (file.length - ((id - 1) * size : Nat) - (num * size : Nat))).toNat := by
    split
    · rfl
    · rw [Int.toNat_of_nonpos (by omega), copyBlocks, dif_pos rfl]
  simp only [deleteRecords, offset_eq size first, range, wrap_wrap_sub, ← Nat.cast_add,
    lseek_natCast, copied, moveDown]

theorem deletes_of_refused {file : RecordFile size} {id num : Nat} :
    Deletes file id num (file.bytes, -1) :=
  Or.inl ⟨Int.neg_ne_zero.mpr Int.one_ne_zero, rfl⟩

theorem deletes_zero_iff {file : RecordFile size} {id num : Nat} {after : Bytes} :
    Deletes file id num (after, 0) ↔ after = file.without id num := by
  constructor
  · rintro (⟨failed, _⟩ | ⟨_, removed⟩)
    · exact absurd rfl failed
    · exact removed
  · exact fun removed => Or.inr ⟨rfl, removed⟩

theorem deleteRecords_deletes_iff (positive : 0 < size) {id num : Nat} (first : 1 ≤ id)
    (some' : 1 ≤ num) (count : Nat) :
    (∀ file : RecordFile size, file.records.length = count →
        Deletes file id num (deleteRecords file.bytes size id num)) ↔
      Refuses size count id ∨ Moves size count id num := by
  have width (file : RecordFile size) (counted : file.records.length = count) :
      file.bytes.length = count * size := by
    rw [file.bytes_length, counted]
  constructor
  · intro deletes
    by_contra fails
    obtain ⟨accepts, stays⟩ := not_or.mp fails
    have zeros : (List.replicate size (0 : UInt8)).length = size := List.length_replicate
    have any : 0 < count := by
      by_contra none
      exact stays (Or.inr ⟨by omega, by omega⟩)
    have counted : (marked (List.replicate size 0) zeros positive count).records.length = count := by
      simp only [marked, List.length_append, List.length_replicate, List.length_singleton]
      omega
    have result := deletes _ counted
    rw [deleteRecords_eq _ first, width _ counted, if_neg (show ¬ wrap _ < 0 from accepts),
      deletes_zero_iff] at result
    exact moveDown_marked zeros positive first some' stays result
  · intro fits file counted
    rw [deleteRecords_eq _ first, width _ counted]
    by_cases refuses : Refuses size count id
    · rw [if_pos (show wrap _ < 0 from refuses)]
      exact deletes_of_refused
    · rw [if_neg (show ¬ wrap _ < 0 from refuses), deletes_zero_iff]
      exact moveDown_without counted positive (fits.resolve_left refuses)

def accepted (file : Bytes) (size id : Nat) : Option RecordCallback → Bool
  | none => false
  | some accepts =>
      decide ((pread file ((id - 1) * size) size).length = size) &&
        accepts (pread file ((id - 1) * size) size)

theorem deleteRecord2_eq (file : Bytes) (positive : 0 < size) {id : Nat} (first : 1 ≤ id)
    (canDelete : Option RecordCallback) :
    deleteRecord2 file size id canDelete =
      if wrap (file.length - ((id - 1) * size : Nat)) < 0 then (file, -1)
      else if accepted file size id canDelete = true then
        (moveDown file ((id - 1) * size) (1 * size), 0)
      else (file, -1) := by
  have valid : ¬ (id : Int) < 1 := by omega
  have behind (width : Int) : width + ((size : Int) * 1) = width + ((1 * size : Nat) : Int) := by
    rw [Nat.one_mul, Int.mul_one]
  unfold deleteRecord2
  simp only [if_neg valid, offset_eq size first, lseek_natCast, ne_eq, not_true_eq_false,
    if_false]
  by_cases refused : wrap (file.length - ((id - 1) * size : Nat)) < 0
  · rw [if_pos refused, if_pos refused]
  · rw [if_neg refused, if_neg refused]
    cases canDelete with
    | none =>
        have apart : ¬ (((id - 1) * size : Nat) : Int) + size * 1 = ((id - 1) * size : Nat) := by
          omega
        have seeked : lseek 0 (((id - 1) * size : Nat) + (size : Int) * 1) =
            ((id - 1) * size + 1 * size, ((id - 1) * size : Nat) + (size : Int) * 1) := by
          rw [behind, ← Nat.cast_add, lseek_natCast]
        simp only [seeked, accepted, if_pos apart]
        rfl
    | some accepts =>
        simp only [accepted, Bool.and_eq_true, decide_eq_true_eq]
        by_cases there : (pread file ((id - 1) * size) size).length = size
        · rw [if_neg (not_not_intro there)]
          cases agrees : accepts (pread file ((id - 1) * size) size) with
          | false =>
              simp only [Bool.false_eq_true, and_false, if_false]
              rfl
          | true =>
              rw [there, wrap_wrap_sub]
              simp only [moveDown, Nat.one_mul, Int.mul_one, Bool.true_eq_false, if_false,
                and_self, if_true]
        · rw [if_pos there]
          simp only [there, false_and, if_false]
          rfl

theorem deleteRecord2_rejected (file : Bytes) (positive : 0 < size) {id : Nat} (first : 1 ≤ id)
    {canDelete : Option RecordCallback} (rejects : accepted file size id canDelete = false) :
    deleteRecord2 file size id canDelete = (file, -1) := by
  rw [deleteRecord2_eq file positive first, rejects]
  split <;> rfl

theorem pread_record {file : RecordFile size} {index : Nat} {record : Bytes}
    (found : file.records[index]? = some record) :
    pread file.bytes (index * size) size = record := by
  obtain ⟨inside, here⟩ := List.getElem?_eq_some_iff.mp found
  have width : record.length = size := file.whole record (List.mem_of_getElem? found)
  rw [pread, RecordFile.bytes, ← RecordFile.flatten_drop file.whole,
    List.drop_eq_getElem_cons inside, here, List.flatten_cons]
  exact List.take_left' width

/-- What a deletion with a callback may do: a callback that rejects the record keeps the file. -/
def DeletesAccepted (file : RecordFile size) (id : Nat) (canDelete : Option RecordCallback)
    (result : Bytes × Int) : Prop :=
  Deletes file id 1 result ∧
    ∀ accepts record, canDelete = some accepts → file.records[id - 1]? = some record →
      accepts record = false → result.1 = file.bytes

def NeverAccepts (size : Nat) (canDelete : Option RecordCallback) : Prop :=
  ∀ accepts, canDelete = some accepts → ∀ record : Bytes, record.length = size →
    accepts record = false

/-- There is no record to delete, none that the callback would accept, or those behind it fit
into an `int`. -/
def Moves2 (size count id : Nat) (canDelete : Option RecordCallback) : Prop :=
  count < id ∨ NeverAccepts size canDelete ∨ ((count - id) * size : Nat) ≤ intMax

theorem accepted_of_never {file : Bytes} {id : Nat} {canDelete : Option RecordCallback}
    (never : NeverAccepts size canDelete) : accepted file size id canDelete = false := by
  cases canDelete with
  | none => rfl
  | some accepts =>
      rw [accepted, Bool.and_eq_false_iff, decide_eq_false_iff_not]
      by_cases width : (pread file ((id - 1) * size) size).length = size
      · exact Or.inr (never accepts rfl _ width)
      · exact Or.inl width

theorem accepted_of_behind {file : RecordFile size} {id : Nat}
    {canDelete : Option RecordCallback} (positive : 0 < size) (behind : file.records.length < id) :
    accepted file.bytes size id canDelete = false := by
  cases canDelete with
  | none => rfl
  | some accepts =>
      have past : file.bytes.length ≤ (id - 1) * size := by
        rw [file.bytes_length]
        exact Nat.mul_le_mul_right size (by omega)
      rw [accepted, pread_eq_nil past, List.length_nil, decide_eq_false (by omega)]
      rfl

theorem deleteRecord2_rejects {file : RecordFile size} {id : Nat} (positive : 0 < size)
    (first : 1 ≤ id) {canDelete : Option RecordCallback} {accepts : RecordCallback}
    {record : Bytes} (given : canDelete = some accepts)
    (found : file.records[id - 1]? = some record) (rejects : accepts record = false) :
    (deleteRecord2 file.bytes size id canDelete).1 = file.bytes := by
  rw [deleteRecord2_rejected _ positive first]
  rw [given, accepted, pread_record found, rejects, Bool.and_false]

theorem deleteRecord2_deletes_iff (positive : 0 < size) {id : Nat} (first : 1 ≤ id) (count : Nat)
    (canDelete : Option RecordCallback) :
    (∀ file : RecordFile size, file.records.length = count →
        DeletesAccepted file id canDelete (deleteRecord2 file.bytes size id canDelete)) ↔
      Refuses size count id ∨ Moves2 size count id canDelete := by
  have width (file : RecordFile size) (counted : file.records.length = count) :
      file.bytes.length = count * size := by
    rw [file.bytes_length, counted]
  constructor
  · intro deletes
    by_contra fails
    obtain ⟨accepting, stays⟩ := not_or.mp fails
    obtain ⟨within, rest⟩ := not_or.mp stays
    obtain ⟨sometimes, large⟩ := not_or.mp rest
    simp only [NeverAccepts, not_forall] at sometimes
    obtain ⟨accepts, given, record, recordWidth, taken⟩ := sometimes
    have more : id < count := by
      by_contra last
      have nothing : count - id = 0 := by omega
      rw [nothing, Nat.zero_mul] at large
      exact large (by decide)
    have counted : (marked record recordWidth positive count).records.length = count := by
      simp only [marked, List.length_append, List.length_replicate, List.length_singleton]
      omega
    have found : (marked record recordWidth positive count).records[id - 1]? = some record := by
      simp only [marked]
      rw [List.getElem?_append_left (by rw [List.length_replicate]; omega),
        List.getElem?_replicate_of_lt (by omega)]
    have taken' : accepted (marked record recordWidth positive count).bytes size id canDelete =
        true := by
      rw [given, accepted, pread_record found, Bool.and_eq_true, decide_eq_true_eq]
      exact ⟨recordWidth, Bool.not_eq_false _ ▸ taken⟩
    have result := (deletes _ counted).1
    rw [deleteRecord2_eq _ positive first, width _ counted,
      if_neg (show ¬ wrap _ < 0 from accepting), if_pos taken', deletes_zero_iff] at result
    refine moveDown_marked recordWidth positive first (Nat.le_refl 1) ?_ result
    rintro (⟨_, small⟩ | ⟨beyond, _⟩)
    · have tail : count - (id - 1) - 1 = count - id := by omega
      rw [tail] at small
      exact large small
    · omega
  · intro fits file counted
    refine ⟨?_, fun accepts record => deleteRecord2_rejects positive first⟩
    rw [deleteRecord2_eq _ positive first, width _ counted]
    by_cases refuses : Refuses size count id
    · rw [if_pos (show wrap _ < 0 from refuses)]
      exact deletes_of_refused
    · rw [if_neg (show ¬ wrap _ < 0 from refuses)]
      by_cases taken : accepted file.bytes size id canDelete = true
      · rw [if_pos taken, deletes_zero_iff]
        refine moveDown_without counted positive (Or.inl ?_)
        rcases fits.resolve_left refuses with behind | never | small
        · rw [accepted_of_behind positive (by omega)] at taken
          exact absurd taken Bool.false_ne_true
        · rw [accepted_of_never never] at taken
          exact absurd taken Bool.false_ne_true
        · have inside : id ≤ count := by
            by_contra behind
            rw [accepted_of_behind positive (by omega)] at taken
            exact absurd taken Bool.false_ne_true
          have tail : count - (id - 1) - 1 = count - id := by omega
          exact ⟨by omega, by rw [tail]; exact small⟩
      · rw [if_neg taken]
        exact deletes_of_refused

/-- Both deletions do what they should for every file of a number of records, if and only if the
range ends within the file and the records behind it fit into an `int`, or the deletion is refused
or has nothing to do. -/
theorem delete_exact_iff (positive : 0 < size) {id num : Nat} (first : 1 ≤ id) (some' : 1 ≤ num)
    (count : Nat) (canDelete : Option RecordCallback) :
    (∀ file : RecordFile size, file.records.length = count →
        Deletes file id num (deleteRecords file.bytes size id num) ∧
          DeletesAccepted file id canDelete (deleteRecord2 file.bytes size id canDelete)) ↔
      (Refuses size count id ∨ Moves size count id num) ∧
        (Refuses size count id ∨ Moves2 size count id canDelete) := by
  rw [← deleteRecords_deletes_iff positive first some' count,
    ← deleteRecord2_deletes_iff positive first count canDelete]
  constructor
  · exact fun both => ⟨fun file counted => (both file counted).1,
      fun file counted => (both file counted).2⟩
  · exact fun both file counted => ⟨both.1 file counted, both.2 file counted⟩

end Functions

def acceptAll : RecordCallback := fun _ => true

/-- The last of three records, and the one behind it. -/
theorem delete_exact_iff_three :
    (∀ file : RecordFile 1, file.records.length = 3 →
        Deletes file 3 2 (deleteRecords file.bytes 1 3 2) ∧
          DeletesAccepted file 3 (some acceptAll) (deleteRecord2 file.bytes 1 3 (some acceptAll))) ↔
      (Refuses 1 3 3 ∨ Moves 1 3 3 2) ∧ (Refuses 1 3 3 ∨ Moves2 1 3 3 (some acceptAll)) :=
  delete_exact_iff (by decide) (by decide) (by decide) 3 (some acceptAll)

def threeRecords : RecordFile 1 where
  records := [[97], [98], [99]]
  whole := by simp

/-- A range that goes on behind the last record cuts off one in front of it. -/
theorem not_deletes_pastEnd :
    deleteRecords threeRecords.bytes 1 3 2 = ([97], 0) ∧ threeRecords.without 3 2 = [97, 98] ∧
      ¬ Deletes threeRecords 3 2 (deleteRecords threeRecords.bytes 1 3 2) := by
  have result : deleteRecords threeRecords.bytes 1 3 2 = ([97], 0) := by rfl
  have rest : threeRecords.without 3 2 = [97, 98] := by rfl
  refine ⟨result, rest, ?_⟩
  rw [result, deletes_zero_iff, rest]
  decide

end Pttbbs.Common.Records
