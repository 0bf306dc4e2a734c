/-
The text of account records under storage conversion.

An account on disk holds its text in another encoding than an account in memory.  When an account
is written, a text field that counts as unchanged is taken from the record that is on disk then,
and every other is converted.  Whether it counts as unchanged is told from the record that was
queried, where the caller passes it, and else from the record on disk.
-/

import Mathlib.Data.List.Basic
import Mathlib.Logic.Function.Basic
import Pttbbs.Lib.Bytes

namespace Pttbbs.Common.Passwd

open Pttbbs.Lib

/-! ### Records -/

inductive TextField where
  | realname
  | nickname
  | address
  | career
  | justify
deriving DecidableEq

def TextField.size : TextField → Nat
  | .realname => 20
  | .nickname => 24
  | .address => 50
  | .career => 40
  | .justify => 39

theorem TextField.size_pos (field : TextField) : 0 < field.size := by
  cases field <;> decide

structure CharArray (size : Nat) where
  bytes : Bytes
  full : bytes.length = size
deriving DecidableEq

namespace CharArray

variable {size : Nat}

def text (array : CharArray size) : Bytes := array.bytes.takeWhile (· ≠ 0)

def Terminated (array : CharArray size) : Prop := 0 ∈ array.bytes

def put (array : CharArray size) (text : Bytes) (short : text.length < size) : CharArray size where
  bytes := text ++ 0 :: array.bytes.drop (text.length + 1)
  full := by
    rw [List.length_append, List.length_cons, List.length_drop, array.full]
    omega

variable {array : CharArray size} {text' : Bytes} (short : text'.length < size)

theorem text_put (plain : 0 ∉ text') : (array.put text' short).text = text' := by
  have nonzero : ∀ byte ∈ text', decide (byte ≠ 0) = true := by
    intro byte member
    exact decide_eq_true fun zero => plain (zero ▸ member)
  rw [text, put, List.takeWhile_append_of_pos nonzero, List.takeWhile_cons_of_neg (by decide),
    List.append_nil]

theorem terminated_put : (array.put text' short).Terminated :=
  List.mem_append_right _ List.mem_cons_self

end CharArray

structure Userec (Other : Type) where
  text : (field : TextField) → CharArray field.size
  other : Other

/-- A conversion reads a string and writes one, with its NUL, into a buffer of a size. -/
structure Conversion where
  convert : Nat → Bytes → Bytes
  short : ∀ size text, 0 < size → (convert size text).length < size
  plain : ∀ size text, 0 ∉ convert size text

def Conversion.inPlace (conversion : Conversion) {size : Nat} (positive : 0 < size)
    (array : CharArray size) : CharArray size :=
  array.put (conversion.convert size array.text) (conversion.short _ _ positive)

/-! ### Queries and updates -/

section Code

variable {Other : Type} (storageToMb mbToStorage : Conversion) (maxUsers : Int)

def userecStorageToMem (u : Userec Other) : Userec Other :=
  { u with text := fun field => storageToMb.inPlace field.size_pos (u.text field) }

/-- Whether `conv_to_s_diff` takes a field for changed.  The string that is converted again ends
within the size of the field, so `strcmp` finds a difference to a field without a NUL. -/
def countsChanged {size : Nat} (dst : CharArray size) : Option (CharArray size) →
    Option (CharArray size) → Bool
  | _, some origM => origM ≠ dst
  | some origD, none => dst.text ≠ storageToMb.convert size origD.text
  | none, none => true

/-- `conv_to_s_diff`, with the field on disk and the field in memory that it compares with. -/
def convToSDiff {size : Nat} (positive : 0 < size) (dst : CharArray size)
    (origD origM : Option (CharArray size)) : CharArray size :=
  if countsChanged storageToMb dst origD origM then mbToStorage.inPlace positive dst
  else
    match origD with
    | some origD => origD
    | none => mbToStorage.inPlace positive dst

def userecMemToStorageDiff (diskBuf : Userec Other) (origDisk origMem : Option (Userec Other)) :
    Userec Other :=
  { diskBuf with
    text := fun field =>
      convToSDiff storageToMb mbToStorage field.size_pos (diskBuf.text field)
        (origDisk.map fun u => u.text field) (origMem.map fun u => u.text field) }

/-- The file of accounts; a record behind its end cannot be read. -/
abbrev Passwds (Other : Type) : Type := Int → Option (Userec Other)

/-- `passwd_update_diff`: the file, or nothing where it returns -1. -/
def passwdUpdateDiff (file : Passwds Other) (num : Int) (origMem : Option (Userec Other))
    (buf : Userec Other) : Option (Passwds Other) :=
  if num < 1 ∨ maxUsers < num then none
  else
    some (Function.update file num
      (some (userecMemToStorageDiff storageToMb mbToStorage buf (file num) origMem)))

def passwdUpdate (file : Passwds Other) (num : Int) (buf : Userec Other) :
    Option (Passwds Other) :=
  passwdUpdateDiff storageToMb mbToStorage maxUsers file num none buf

def passwdQuery (file : Passwds Other) (num : Int) : Option (Userec Other) :=
  if num < 1 ∨ maxUsers < num then none
  else (file num).map (userecStorageToMem storageToMb)

/-! ### What is asked of an update -/

structure Saved (queried mem disk written : Userec Other) : Prop where
  kept : ∀ field, (mem.text field).text = (queried.text field).text →
    written.text field = disk.text field
  changed : ∀ field, (mem.text field).text ≠ (queried.text field).text →
    (written.text field).Terminated ∧
      (written.text field).text = mbToStorage.convert field.size (mem.text field).text
  other : written.other = mem.other

def Saves (queried mem disk : Userec Other) (file : Passwds Other) (num : Int)
    (after : Option (Passwds Other)) : Prop :=
  ∃ written, after = some (Function.update file num (some written)) ∧
    Saved mbToStorage queried mem disk written

def encoded (mem : Userec Other) (field : TextField) : CharArray field.size :=
  mbToStorage.inPlace field.size_pos (mem.text field)

def RestKept (queried mem disk : Userec Other) : Prop :=
  ∀ field, (mem.text field).text = (queried.text field).text →
    mem.text field = queried.text field ∨ encoded mbToStorage mem field = disk.text field

/-- The field on disk still reads as it was queried, or else the caller has changed it to something
that the field on disk does not read as. -/
def DiskKept (queried mem disk : Userec Other) : Prop :=
  ∀ field,
    ((mem.text field).text = (queried.text field).text →
      storageToMb.convert field.size (disk.text field).text = (queried.text field).text ∨
        encoded mbToStorage mem field = disk.text field) ∧
    ((mem.text field).text ≠ (queried.text field).text →
      storageToMb.convert field.size (disk.text field).text ≠ (mem.text field).text ∨
        (disk.text field).Terminated ∧
          (disk.text field).text = mbToStorage.convert field.size (mem.text field).text)

end Code

/-! ### Updates -/

section Updates

variable {Other : Type} {storageToMb mbToStorage : Conversion} {queried mem disk : Userec Other}

theorem encoded_terminated (field : TextField) : (encoded mbToStorage mem field).Terminated :=
  CharArray.terminated_put (mbToStorage.short _ _ field.size_pos)

theorem encoded_text (field : TextField) :
    (encoded mbToStorage mem field).text =
      mbToStorage.convert field.size (mem.text field).text :=
  CharArray.text_put (mbToStorage.short _ _ field.size_pos) (mbToStorage.plain _ _)

theorem saved_iff {keeps : TextField → Prop} [DecidablePred keeps] {written : Userec Other}
    (other : written.other = mem.other)
    (fields : ∀ field, written.text field =
      if keeps field then disk.text field else encoded mbToStorage mem field) :
    Saved mbToStorage queried mem disk written ↔
      ∀ field,
        ((mem.text field).text = (queried.text field).text →
          keeps field ∨ encoded mbToStorage mem field = disk.text field) ∧
        ((mem.text field).text ≠ (queried.text field).text →
          ¬ keeps field ∨ (disk.text field).Terminated ∧
            (disk.text field).text = mbToStorage.convert field.size (mem.text field).text) := by
  constructor
  · intro saved field
    have result := fields field
    by_cases keep : keeps field
    · rw [if_pos keep] at result
      refine ⟨fun _ => Or.inl keep, fun differ => Or.inr ?_⟩
      rw [← result]
      exact saved.changed field differ
    · rw [if_neg keep] at result
      refine ⟨fun same => Or.inr ?_, fun _ => Or.inl keep⟩
      rw [← result]
      exact saved.kept field same
  · intro meets
    constructor
    · intro field same
      rw [fields field]
      rcases (meets field).1 same with keep | equal
      · rw [if_pos keep]
      · rw [equal, ite_self]
    · intro field differ
      rw [fields field]
      by_cases keep : keeps field
      · rw [if_pos keep]
        exact ((meets field).2 differ).resolve_left (not_not_intro keep)
      · rw [if_neg keep]
        exact ⟨encoded_terminated field, encoded_text field⟩
    · exact other

theorem updateDiff_saved_iff :
    Saved mbToStorage queried mem disk
        (userecMemToStorageDiff storageToMb mbToStorage mem (some disk) (some queried)) ↔
      RestKept mbToStorage queried mem disk := by
  have fields (field : TextField) :
      (userecMemToStorageDiff storageToMb mbToStorage mem (some disk) (some queried)).text field =
        if mem.text field = queried.text field then disk.text field
        else encoded mbToStorage mem field := by
    change (if decide (queried.text field ≠ mem.text field) = true then _ else _) = _
    by_cases same : mem.text field = queried.text field
    · rw [if_pos same, decide_eq_false (not_not_intro same.symm), if_neg Bool.false_ne_true]
    · rw [if_neg same, decide_eq_true (Ne.symm same), if_pos rfl]
      rfl
  have other :
      (userecMemToStorageDiff storageToMb mbToStorage mem (some disk) (some queried)).other =
        mem.other := rfl
  rw [saved_iff other fields]
  constructor
  · intro meets field
    exact (meets field).1
  · intro kept field
    refine ⟨kept field, fun differ => Or.inl fun same => differ ?_⟩
    rw [same]

theorem update_saved_iff :
    Saved mbToStorage queried mem disk
        (userecMemToStorageDiff storageToMb mbToStorage mem (some disk) none) ↔
      DiskKept storageToMb mbToStorage queried mem disk := by
  have fields (field : TextField) :
      (userecMemToStorageDiff storageToMb mbToStorage mem (some disk) none).text field =
        if (mem.text field).text = storageToMb.convert field.size (disk.text field).text then
          disk.text field
        else encoded mbToStorage mem field := by
    change (if decide ((mem.text field).text ≠ _) = true then _ else _) = _
    by_cases same :
        (mem.text field).text = storageToMb.convert field.size (disk.text field).text
    · rw [if_pos same, decide_eq_false (not_not_intro same), if_neg Bool.false_ne_true]
    · rw [if_neg same, decide_eq_true same, if_pos rfl]
      rfl
  have other :
      (userecMemToStorageDiff storageToMb mbToStorage mem (some disk) none).other = mem.other := rfl
  rw [saved_iff other fields]
  refine forall_congr' fun field => and_congr ?_ ?_
  · refine forall_congr' fun same => ?_
    rw [same, eq_comm]
  · rw [ne_comm (a := storageToMb.convert field.size (disk.text field).text), ne_eq]

theorem saves_some {file : Passwds Other} {num : Int} (record : Userec Other) :
    Saves mbToStorage queried mem disk file num (some (Function.update file num (some record))) ↔
      Saved mbToStorage queried mem disk record := by
  constructor
  · rintro ⟨written, same, saved⟩
    have equal := congrFun (Option.some.inj same) num
    rw [Function.update_self, Function.update_self] at equal
    rw [Option.some.inj equal]
    exact saved
  · exact fun saved => ⟨record, rfl, saved⟩

/-- The two updates of a queried record write what is asked exactly when the rest of each field is
kept, and the file has been kept since the query. -/
theorem saves_iff {maxUsers : Int} {before file : Passwds Other} {num : Int}
    {stored : Userec Other} (valid : 1 ≤ num ∧ num ≤ maxUsers) (there : before num = some stored)
    (here : file num = some disk) (mem : Userec Other) :
    ∃ queried, passwdQuery storageToMb maxUsers before num = some queried ∧
      (Saves mbToStorage queried mem disk file num
          (passwdUpdateDiff storageToMb mbToStorage maxUsers file num (some queried) mem) ↔
        RestKept mbToStorage queried mem disk) ∧
      (Saves mbToStorage queried mem disk file num
          (passwdUpdate storageToMb mbToStorage maxUsers file num mem) ↔
        DiskKept storageToMb mbToStorage queried mem disk) := by
  have inside : ¬ (num < 1 ∨ maxUsers < num) := by omega
  refine ⟨userecStorageToMem storageToMb stored, ?_, ?_, ?_⟩
  · rw [passwdQuery, if_neg inside, there, Option.map_some]
  · rw [passwdUpdateDiff, if_neg inside, here, saves_some, updateDiff_saved_iff]
  · rw [passwdUpdate, passwdUpdateDiff, if_neg inside, here, saves_some, update_saved_iff]

end Updates

/-! ### A name that storage holds and memory cannot -/

/-- The bytes that fit a field, each above ASCII shown as a question mark if `lossy`. -/
def sample (lossy : Bool) : Conversion where
  convert size text :=
    ((text.filter fun byte => byte ≠ 0).map fun byte =>
      if lossy && 0x80 ≤ byte then 63 else byte).take (size - 1)
  short size text positive := by
    rw [List.length_take]
    omega
  plain size text member := by
    obtain ⟨byte, inside, zero⟩ := List.mem_map.mp (List.mem_of_mem_take member)
    have nonzero := of_decide_eq_true (List.mem_filter.mp inside).2
    split at zero
    · exact absurd zero (by decide)
    · exact nonzero zero

def named (name behind : UInt8) : Userec Unit where
  text field :=
    { bytes := name :: 0 :: behind :: List.replicate (field.size - 3) 0
      full := by cases field <;> rfl }
  other := ()

theorem saves_iff_named :
    ∃ queried, passwdQuery (sample true) 1 (fun _ => some (named 0xA4 0)) 1 = some queried ∧
      (Saves (sample false) queried (named 65 0) (named 0xA4 0) (fun _ => some (named 0xA4 0)) 1
          (passwdUpdateDiff (sample true) (sample false) 1 (fun _ => some (named 0xA4 0)) 1
            (some queried) (named 65 0)) ↔
        RestKept (sample false) queried (named 65 0) (named 0xA4 0)) ∧
      (Saves (sample false) queried (named 65 0) (named 0xA4 0) (fun _ => some (named 0xA4 0)) 1
          (passwdUpdate (sample true) (sample false) 1 (fun _ => some (named 0xA4 0)) 1
            (named 65 0)) ↔
        DiskKept (sample true) (sample false) queried (named 65 0) (named 0xA4 0)) :=
  saves_iff (by decide) rfl rfl (named 65 0)

/-- The name was typed again: the same question mark, and another byte behind its NUL. -/
theorem not_saves_named :
    ¬ ∃ queried, passwdQuery (sample true) 1 (fun _ => some (named 0xA4 0)) 1 = some queried ∧
      Saves (sample false) queried (named 63 7) (named 0xA4 0) (fun _ => some (named 0xA4 0)) 1
        (passwdUpdateDiff (sample true) (sample false) 1 (fun _ => some (named 0xA4 0)) 1
          (some queried) (named 63 7)) := by
  rintro ⟨queried, query, written, after, saved⟩
  have record : queried = userecStorageToMem (sample true) (named 0xA4 0) :=
    (Option.some.inj query).symm
  subst record
  have kept := saved.kept .realname (by decide)
  have equal := congrFun (Option.some.inj after) 1
  rw [Function.update_self, Function.update_self] at equal
  rw [← Option.some.inj equal] at kept
  revert kept
  decide

end Pttbbs.Common.Passwd
