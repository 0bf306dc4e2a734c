/-
The bytes of a file, read and written at positions.

A write behind the end fills the gap with zeros, and a file that is cut to a larger size grows
by zeros.  Copying a stretch of a file towards its front, block by block, moves as many bytes
as there are blocks to hold them, each of them once.
-/

import Pttbbs.Lib.Bytes

namespace Pttbbs.Lib

def pread (file : Bytes) (position count : Nat) : Bytes :=
  (file.drop position).take count

def resize (file : Bytes) (size : Nat) : Bytes :=
  file.take size ++ List.replicate (size - file.length) 0

def pwrite (file : Bytes) (position : Nat) (data : Bytes) : Bytes :=
  if data = [] then file
  else resize file position ++ data ++ file.drop (position + data.length)

/-- A stretch of a file copied from a position to another in blocks, until `left` bytes are
done or there is nothing left to read. -/
def copyBlocks (block : Nat) (file : Bytes) (source target left : Nat) : Bytes :=
  if _done : left = 0 then file
  else
    let chunk := pread file source block
    if _ended : chunk = [] then file
    else
      copyBlocks block (pwrite file target chunk) (source + chunk.length)
        (target + chunk.length) (left - chunk.length)
termination_by left
decreasing_by
  exact Nat.sub_lt (Nat.pos_of_ne_zero _done) (List.length_pos_iff.mpr _ended)

theorem pread_length (file : Bytes) (position count : Nat) :
    (pread file position count).length = min count (file.length - position) := by
  simp only [pread, List.length_take, List.length_drop]

theorem pread_eq_nil {file : Bytes} {position count : Nat} (behind : file.length ≤ position) :
    pread file position count = [] := by
  rw [pread, List.drop_eq_nil_of_le behind, List.take_nil]

theorem resize_length (file : Bytes) (size : Nat) : (resize file size).length = size := by
  simp only [resize, List.length_append, List.length_take, List.length_replicate]
  omega

theorem resize_of_le {file : Bytes} {size : Nat} (within : size ≤ file.length) :
    resize file size = file.take size := by
  rw [resize, Nat.sub_eq_zero_of_le within, List.replicate_zero, List.append_nil]

section Inside

variable {file data : Bytes} {position : Nat}

theorem pwrite_eq (within : position + data.length ≤ file.length) :
    pwrite file position data =
      file.take position ++ data ++ file.drop (position + data.length) := by
  unfold pwrite
  by_cases empty : data = []
  · rw [if_pos empty, empty, List.append_nil, List.length_nil, Nat.add_zero,
      List.take_append_drop]
  · rw [if_neg empty, resize_of_le (by omega)]

theorem pwrite_length (within : position + data.length ≤ file.length) :
    (pwrite file position data).length = file.length := by
  rw [pwrite_eq within]
  simp only [List.length_append, List.length_take, List.length_drop]
  omega

theorem pwrite_take (within : position + data.length ≤ file.length) :
    (pwrite file position data).take (position + data.length) = file.take position ++ data := by
  have width : (file.take position ++ data).length = position + data.length := by
    rw [List.length_append, List.length_take]
    omega
  rw [pwrite_eq within]
  exact List.take_left' width

theorem pwrite_drop (within : position + data.length ≤ file.length) {start : Nat}
    (behind : position + data.length ≤ start) :
    (pwrite file position data).drop start = file.drop start := by
  have width : (file.take position ++ data).length = position + data.length := by
    rw [List.length_append, List.length_take]
    omega
  obtain ⟨further, rfl⟩ := Nat.exists_eq_add_of_le behind
  rw [pwrite_eq within, ← List.drop_drop, List.drop_left' width, List.drop_drop]

end Inside

def copied (file : Bytes) (source target count : Nat) : Bytes :=
  file.take target ++ pread file source count ++ file.drop (target + count)

theorem copied_zero (file : Bytes) (source target : Nat) : copied file source target 0 = file := by
  rw [copied, pread, List.take_zero, List.append_nil, Nat.add_zero, List.take_append_drop]

theorem copyBlocks_behind {block : Nat} {file : Bytes} {source target left : Nat}
    (behind : file.length ≤ source) : copyBlocks block file source target left = file := by
  rw [copyBlocks]
  by_cases done : left = 0
  · rw [dif_pos done]
  · rw [dif_neg done, pread_eq_nil behind]
    rfl

theorem copied_pwrite {file : Bytes} {source target count : Nat} {chunk : Bytes}
    (forward : target ≤ source) (read : chunk = pread file source chunk.length)
    (within : source + chunk.length ≤ file.length) :
    copied (pwrite file target chunk) (source + chunk.length) (target + chunk.length) count =
      copied file source target (chunk.length + count) := by
  have inside : target + chunk.length ≤ file.length := by omega
  have joined :
      pread file source (chunk.length + count) =
        chunk ++ pread file (source + chunk.length) count := by
    conv_rhs => rw [read]
    simp only [pread, List.length_take, List.length_drop]
    rw [List.take_add, List.drop_drop, Nat.min_eq_left (by omega)]
  unfold copied
  rw [pwrite_take inside, joined, pread, pwrite_drop inside (by omega),
    pwrite_drop inside (by omega), ← pread]
  simp only [List.append_assoc, Nat.add_assoc]

/-- What the loop copies: as much as there is, or at least what it was asked for and less than
a block more. -/
theorem copyBlocks_eq {block : Nat} (positive : 0 < block) (file : Bytes)
    {source target left : Nat} (forward : target ≤ source) (within : source ≤ file.length) :
    ∃ count, copyBlocks block file source target left = copied file source target count ∧
      count ≤ file.length - source ∧ min left (file.length - source) ≤ count ∧
      (left = 0 → count = 0) ∧ count < left + block := by
  induction left using Nat.strongRecOn generalizing file source target with
  | ind left ih =>
      rw [copyBlocks]
      by_cases done : left = 0
      · refine ⟨0, ?_, by omega, by omega, by omega, by omega⟩
        rw [dif_pos done, copied_zero]
      · rw [dif_neg done]
        have width := pread_length file source block
        by_cases ended : source = file.length
        · refine ⟨0, ?_, by omega, by omega, by omega, by omega⟩
          rw [pread_eq_nil (by omega), copied_zero]
          rfl
        · have filled : pread file source block ≠ [] := by
            apply List.length_pos_iff.mp
            omega
          have again :
              pread file source block =
                pread file source (pread file source block).length := by
            rw [width, pread, pread, ← List.length_drop, List.take_eq_take_min]
          simp only [dif_neg filled]
          generalize pread file source block = chunk at width again filled ⊢
          have inside : target + chunk.length ≤ file.length := by omega
          have same := pwrite_length inside
          obtain ⟨count, result, most, least, nothing, less⟩ :=
            @ih (left - chunk.length) (by omega) (pwrite file target chunk)
              (source + chunk.length) (target + chunk.length) (by omega) (by omega)
          refine ⟨chunk.length + count, ?_, by omega, by omega, by omega, by omega⟩
          rw [result, copied_pwrite forward again (by omega)]

end Pttbbs.Lib
