/-
Records of a fixed layout.

A field is a range of a record, and a write replaces what stands in one field and
nothing else.  Writes of different fields do not meet, so that writing all fields twice
is writing them once.  A file of such records is cut into pieces of one size.
-/

import Mathlib.Data.List.Basic
import Mathlib.Data.List.Range

namespace Pttbbs.Lib

variable {Item : Type}

/-! ### Fields -/

def slice (off len : Nat) (record : List Item) : List Item := (record.drop off).take len

theorem getElem?_slice (off len index : Nat) (record : List Item) :
    (slice off len record)[index]? = if index < len then record[off + index]? else none := by
  unfold slice
  rw [List.getElem?_take, List.getElem?_drop]

theorem length_slice (off len : Nat) (record : List Item) :
    (slice off len record).length = min len (record.length - off) := by
  unfold slice
  rw [List.length_take, List.length_drop]

/-- What a write does to its field; doing it again changes nothing. -/
structure FieldWrite (Item : Type) where
  off : Nat
  len : Nat
  write : List Item → List Item
  length_write : ∀ old, (write old).length = old.length
  write_write : ∀ old, write (write old) = write old

namespace FieldWrite

def apply (field : FieldWrite Item) (record : List Item) : List Item :=
  record.take field.off ++ field.write (slice field.off field.len record) ++
    record.drop (field.off + field.len)

theorem length_apply (field : FieldWrite Item) (record : List Item) :
    (field.apply record).length = record.length := by
  unfold apply
  rw [List.length_append, List.length_append, field.length_write, length_slice,
    List.length_take, List.length_drop]
  omega

theorem getElem?_apply_of_outside (field : FieldWrite Item) (record : List Item) {index : Nat}
    (outside : index < field.off ∨ field.off + field.len ≤ index) :
    (field.apply record)[index]? = record[index]? := by
  unfold apply
  have fieldLength := field.length_write (slice field.off field.len record)
  rw [length_slice] at fieldLength
  have before : (record.take field.off).length = min field.off record.length :=
    List.length_take
  have both : (record.take field.off ++ field.write (slice field.off field.len record)).length =
      min field.off record.length + min field.len (record.length - field.off) := by
    rw [List.length_append, before, fieldLength]
  rcases outside with early | late
  · by_cases inside : index < record.length
    · rw [List.getElem?_append_left (by omega), List.getElem?_append_left (by omega),
        List.getElem?_take, if_pos early]
    · have length := length_apply field record
      unfold apply at length
      rw [List.getElem?_eq_none (by omega), List.getElem?_eq_none (by omega)]
  · by_cases inside : index < record.length
    · rw [List.getElem?_append_right (by omega), List.getElem?_drop, both]
      congr 1
      omega
    · have length := length_apply field record
      unfold apply at length
      rw [List.getElem?_eq_none (by omega), List.getElem?_eq_none (by omega)]

theorem slice_apply_self (field : FieldWrite Item) (record : List Item) :
    slice field.off field.len (field.apply record) =
      field.write (slice field.off field.len record) := by
  have fieldLength := field.length_write (slice field.off field.len record)
  rw [length_slice] at fieldLength
  unfold apply
  by_cases inside : field.off ≤ record.length
  · have before : (record.take field.off).length = field.off := by
      rw [List.length_take]
      omega
    conv_lhs => rw [slice]
    rw [List.append_assoc, List.drop_append_of_le_length (le_of_eq before.symm),
      List.drop_of_length_le (le_of_eq before), List.nil_append]
    by_cases whole : field.off + field.len ≤ record.length
    · rw [List.take_append_of_le_length (by omega), List.take_of_length_le (by omega)]
    · rw [List.drop_of_length_le (by omega), List.append_nil, List.take_of_length_le (by omega)]
  · have none : slice field.off field.len record = [] := by
      apply List.eq_nil_of_length_eq_zero
      rw [length_slice]
      omega
    have empty : field.write [] = [] := List.eq_nil_of_length_eq_zero (field.length_write [])
    rw [none, empty, List.append_nil, List.take_of_length_le (by omega),
      List.drop_of_length_le (by omega), List.append_nil, none]

def Apart (left right : FieldWrite Item) : Prop :=
  left.off + left.len ≤ right.off ∨ right.off + right.len ≤ left.off

theorem Apart.symm {left right : FieldWrite Item} (apart : left.Apart right) :
    right.Apart left := Or.symm apart

theorem slice_apply_of_apart (field : FieldWrite Item) {off len : Nat}
    (apart : field.off + field.len ≤ off ∨ off + len ≤ field.off) (record : List Item) :
    slice off len (field.apply record) = slice off len record := by
  apply List.ext_getElem?
  intro index
  rw [getElem?_slice, getElem?_slice]
  by_cases inside : index < len
  · rw [if_pos inside, if_pos inside]
    apply getElem?_apply_of_outside
    omega
  · rw [if_neg inside, if_neg inside]

theorem apply_eq_self (field : FieldWrite Item) {record : List Item}
    (held : field.write (slice field.off field.len record) = slice field.off field.len record) :
    field.apply record = record := by
  unfold apply
  rw [held]
  unfold slice
  rw [List.append_assoc, ← List.drop_drop, List.take_append_drop, List.take_append_drop]

def applyAll (fields : List (FieldWrite Item)) (record : List Item) : List Item :=
  fields.foldl (fun record field => field.apply record) record

theorem length_applyAll (fields : List (FieldWrite Item)) (record : List Item) :
    (applyAll fields record).length = record.length := by
  induction fields generalizing record with
  | nil => rfl
  | cons field rest ih =>
      change (applyAll rest (field.apply record)).length = _
      rw [ih, length_apply]

theorem slice_applyAll_of_apart {fields : List (FieldWrite Item)} {off len : Nat}
    (apart : ∀ field ∈ fields, field.off + field.len ≤ off ∨ off + len ≤ field.off)
    (record : List Item) : slice off len (applyAll fields record) = slice off len record := by
  induction fields generalizing record with
  | nil => rfl
  | cons field rest ih =>
      obtain ⟨here, later⟩ := List.forall_mem_cons.mp apart
      change slice off len (applyAll rest (field.apply record)) = _
      rw [ih later, slice_apply_of_apart field here]

theorem getElem?_applyAll_of_outside {fields : List (FieldWrite Item)} {index : Nat}
    (outside : ∀ field ∈ fields, index < field.off ∨ field.off + field.len ≤ index)
    (record : List Item) : (applyAll fields record)[index]? = record[index]? := by
  induction fields generalizing record with
  | nil => rfl
  | cons field rest ih =>
      obtain ⟨here, later⟩ := List.forall_mem_cons.mp outside
      change (applyAll rest (field.apply record))[index]? = _
      rw [ih later, getElem?_apply_of_outside field record here]

theorem slice_applyAll {fields : List (FieldWrite Item)} (apart : fields.Pairwise Apart)
    {field : FieldWrite Item} (member : field ∈ fields) (record : List Item) :
    slice field.off field.len (applyAll fields record) =
      field.write (slice field.off field.len record) := by
  induction fields generalizing record with
  | nil => cases member
  | cons first rest ih =>
      obtain ⟨firstApart, restApart⟩ := List.pairwise_cons.mp apart
      change slice _ _ (applyAll rest (first.apply record)) = _
      rcases List.mem_cons.mp member with same | later
      · subst same
        rw [slice_applyAll_of_apart (fun other inside => (firstApart other inside).symm),
          slice_apply_self]
      · rw [ih restApart later, slice_apply_of_apart first (firstApart field later)]

theorem applyAll_eq_self {fields : List (FieldWrite Item)} {record : List Item}
    (held : ∀ field ∈ fields, field.apply record = record) : applyAll fields record = record := by
  induction fields with
  | nil => rfl
  | cons field rest ih =>
      obtain ⟨here, later⟩ := List.forall_mem_cons.mp held
      change applyAll rest (field.apply record) = _
      rw [here, ih later]

theorem applyAll_applyAll {fields : List (FieldWrite Item)} (apart : fields.Pairwise Apart)
    (record : List Item) :
    applyAll fields (applyAll fields record) = applyAll fields record := by
  apply applyAll_eq_self
  intro field member
  apply apply_eq_self
  rw [slice_applyAll apart member, field.write_write]

theorem applyAll_of_subset {fields some : List (FieldWrite Item)} (apart : fields.Pairwise Apart)
    (inside : ∀ field ∈ some, field ∈ fields) (record : List Item) :
    applyAll some (applyAll fields record) = applyAll fields record := by
  apply applyAll_eq_self
  intro field member
  apply apply_eq_self
  rw [slice_applyAll apart (inside field member), field.write_write]

end FieldWrite

/-! ### Files of records -/

def chunksOf (size : Nat) (data : List Item) : List (List Item) :=
  (List.range (data.length / size)).map fun index => slice (index * size) size data

theorem chunksOf_append {size : Nat} (positive : 0 < size) {record : List Item}
    (length : record.length = size) (data : List Item) :
    chunksOf size (record ++ data) = record :: chunksOf size data := by
  unfold chunksOf
  have count : (record ++ data).length / size = data.length / size + 1 := by
    rw [List.length_append, length, Nat.add_comm, Nat.add_div_right _ positive]
  rw [count, List.range_succ_eq_map, List.map_cons, List.map_map]
  congr 1
  · unfold slice
    rw [Nat.zero_mul, List.drop_zero, List.take_append_of_le_length (le_of_eq length.symm),
      List.take_of_length_le (le_of_eq length)]
  · apply List.map_congr_left
    intro index _
    change slice ((index + 1) * size) size (record ++ data) = _
    unfold slice
    have beyond : (index + 1) * size = record.length + index * size := by
      rw [Nat.succ_mul, length, Nat.add_comm]
    rw [beyond, ← List.drop_drop, List.drop_left]

theorem chunksOf_flatten {size : Nat} (positive : 0 < size) {records : List (List Item)}
    (lengths : ∀ record ∈ records, record.length = size) :
    chunksOf size records.flatten = records := by
  induction records with
  | nil => simp [chunksOf]
  | cons record rest ih =>
      obtain ⟨here, later⟩ := List.forall_mem_cons.mp lengths
      rw [List.flatten_cons, chunksOf_append positive here, ih later]

theorem length_flatten_of_lengths {size : Nat} {records : List (List Item)}
    (lengths : ∀ record ∈ records, record.length = size) :
    records.flatten.length = records.length * size := by
  induction records with
  | nil => simp
  | cons record rest ih =>
      obtain ⟨here, later⟩ := List.forall_mem_cons.mp lengths
      rw [List.flatten_cons, List.length_append, here, ih later, List.length_cons, Nat.succ_mul,
        Nat.add_comm]

theorem length_of_mem_chunksOf {size : Nat} {data record : List Item}
    (member : record ∈ chunksOf size data) : record.length = size := by
  unfold chunksOf at member
  obtain ⟨index, inside, rfl⟩ := List.mem_map.mp member
  rw [List.mem_range] at inside
  rw [length_slice]
  have upper : (index + 1) * size ≤ data.length :=
    le_trans (Nat.mul_le_mul_right _ inside) (Nat.div_mul_le_self _ _)
  rw [Nat.succ_mul] at upper
  omega

theorem flatten_chunksOf {size : Nat} (positive : 0 < size) (data : List Item)
    (whole : data.length % size = 0) : (chunksOf size data).flatten = data := by
  obtain ⟨count, total⟩ := Nat.dvd_of_mod_eq_zero whole
  induction count generalizing data with
  | zero =>
      rw [Nat.mul_zero] at total
      rw [List.eq_nil_of_length_eq_zero total]
      simp [chunksOf]
  | succ count ih =>
      have more : size ≤ data.length := by
        rw [total, Nat.mul_succ]
        omega
      have first : (data.take size).length = size := by
        rw [List.length_take]
        omega
      have left : (data.drop size).length = size * count := by
        rw [List.length_drop, total, Nat.mul_succ]
        omega
      conv_lhs => rw [← List.take_append_drop size data]
      rw [chunksOf_append positive first, List.flatten_cons,
        ih _ (by rw [left, Nat.mul_mod_right]) left, List.take_append_drop]

def writeAt (off : Nat) (bytes data : List Item) : List Item :=
  data.take off ++ bytes ++ data.drop (off + bytes.length)

theorem writeAt_middle (before old bytes after : List Item) (same : bytes.length = old.length) :
    writeAt before.length bytes (before ++ (old ++ after)) = before ++ (bytes ++ after) := by
  unfold writeAt
  rw [same, List.take_left, ← List.drop_drop, List.drop_left, List.drop_left, List.append_assoc]

end Pttbbs.Lib
