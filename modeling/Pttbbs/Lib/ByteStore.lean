/-
An ordered store of byte keys, scanned by prefixes.

A bounded scan runs from a prefix to the prefix followed by 0xff and so misses
the keys that go on with that byte.  A family of keys is a stem followed by a
32-bit number; while its numbers are 1 up to some count the scan of the stem
ends with the count.
-/

import Pttbbs.Lib.Bytes
import Pttbbs.Lib.OrderedMap

namespace Pttbbs.Lib

abbrev ByteStore := OrderedMap Bytes Bytes

def scanPrefix (db : ByteStore) (stem : Bytes) : List (Bytes × Bytes) :=
  db.range stem (stem ++ [0xff])

/-- The entries whose key has the prefix, for loops that test the prefix. -/
def seekPrefix (db : ByteStore) (stem : Bytes) : List (Bytes × Bytes) :=
  db.entries.filter (fun entry => stem.isPrefixOf entry.1)

theorem mem_scanPrefix (db : ByteStore) (stem : Bytes) (entry : Bytes × Bytes) :
    entry ∈ scanPrefix db stem ↔
      db.get? entry.1 = some entry.2 ∧
        ∃ suffix, entry.1 = stem ++ suffix ∧ ∀ byte ∈ suffix.head?, byte < 0xff := by
  unfold scanPrefix
  rw [OrderedMap.mem_range, prefix_range_iff, OrderedMap.get?_eq_some_iff]

theorem mem_seekPrefix (db : ByteStore) (stem : Bytes) (entry : Bytes × Bytes) :
    entry ∈ seekPrefix db stem ↔ db.get? entry.1 = some entry.2 ∧ stem <+: entry.1 := by
  unfold seekPrefix
  rw [List.mem_filter, OrderedMap.get?_eq_some_iff, List.isPrefixOf_iff_prefix]

/-! ### Keys with a stem -/

def HasStem (db : ByteStore) (stem : Bytes) : Prop :=
  ∃ key, stem <+: key ∧ (db.get? key).isSome

namespace HasStem

variable {db : ByteStore} {stem : Bytes}

theorem of_set {key value : Bytes} (found : HasStem (db.set key value) stem) :
    HasStem db stem ∨ stem <+: key := by
  obtain ⟨other, stemmed, present⟩ := found
  by_cases same : other = key
  · exact Or.inr (same ▸ stemmed)
  · rw [OrderedMap.get?_set_of_ne _ _ same] at present
    exact Or.inl ⟨other, stemmed, present⟩

theorem of_deleteAll {keys : List Bytes} (found : HasStem (db.deleteAll keys) stem) :
    HasStem db stem := by
  obtain ⟨other, stemmed, present⟩ := found
  rw [OrderedMap.get?_deleteAll] at present
  split at present
  · cases present
  · exact ⟨other, stemmed, present⟩

theorem of_empty (found : HasStem (OrderedMap.empty : ByteStore) stem) : False := by
  obtain ⟨other, _stemmed, present⟩ := found
  cases present

end HasStem

theorem scanPrefix_of_no_stem {db : ByteStore} {stem : Bytes} (missing : ¬ HasStem db stem) :
    scanPrefix db stem = [] := by
  rw [List.eq_nil_iff_forall_not_mem]
  intro entry member
  obtain ⟨stored, suffix, split, _low⟩ := (mem_scanPrefix db stem entry).mp member
  exact missing ⟨entry.1, ⟨suffix, split.symm⟩, by rw [stored]; rfl⟩

theorem seekPrefix_of_no_stem {db : ByteStore} {stem : Bytes} (missing : ¬ HasStem db stem) :
    seekPrefix db stem = [] := by
  rw [List.eq_nil_iff_forall_not_mem]
  intro entry member
  obtain ⟨stored, stemmed⟩ := (mem_seekPrefix db stem entry).mp member
  exact missing ⟨entry.1, stemmed, by rw [stored]; rfl⟩

/-! ### Numbered keys -/

def numberedKey (stem : Bytes) (number : UInt32) : Bytes := stem ++ putUint32 number

@[simp] theorem numberedKey_inj {stem : Bytes} {left right : UInt32} :
    numberedKey stem left = numberedKey stem right ↔ left = right := by
  simp [numberedKey]

theorem prefix_numberedKey (stem : Bytes) (number : UInt32) : stem <+: numberedKey stem number :=
  ⟨putUint32 number, rfl⟩

theorem mem_scanPrefix_of_small {db : ByteStore} {stem value : Bytes} {number : UInt32}
    (stored : db.get? (numberedKey stem number) = some value) (small : number.toNat < 0xff000000) :
    (numberedKey stem number, value) ∈ scanPrefix db stem :=
  (mem_scanPrefix _ _ _).mpr
    ⟨stored, putUint32 number, rfl, (putUint32_head_lt_iff number).mpr small⟩

theorem numberedKey_le_iff (stem : Bytes) (left right : UInt32) :
    numberedKey stem left ≤ numberedKey stem right ↔ left.toNat ≤ right.toNat := by
  unfold numberedKey
  rw [append_le_append_left, ← not_lt, putUint32_lt_iff, not_lt]

/-- The store holds exactly the numbers 1 to `count` of a family, and no other
key with its stem. -/
def NumberedTo (db : ByteStore) (stem : Bytes) (count : Nat) : Prop :=
  ∀ key, stem <+: key →
    ((db.get? key).isSome ↔
      ∃ number : UInt32, key = numberedKey stem number ∧
        1 ≤ number.toNat ∧ number.toNat ≤ count)

theorem NumberedTo.get?_isSome_iff {db : ByteStore} {stem : Bytes} {count : Nat}
    (numbered : NumberedTo db stem count) (number : UInt32) :
    (db.get? (numberedKey stem number)).isSome ↔ 1 ≤ number.toNat ∧ number.toNat ≤ count := by
  rw [numbered _ (prefix_numberedKey stem number)]
  constructor
  · rintro ⟨other, same, bounds⟩
    rw [numberedKey_inj.mp same]
    exact bounds
  · intro bounds
    exact ⟨number, rfl, bounds⟩

theorem NumberedTo.set_next {db : ByteStore} {stem : Bytes} {count : Nat}
    (numbered : NumberedTo db stem count) {number : UInt32} (next : number.toNat = count + 1)
    (value : Bytes) : NumberedTo (db.set (numberedKey stem number) value) stem (count + 1) := by
  intro key stemmed
  by_cases same : key = numberedKey stem number
  · subst same
    rw [OrderedMap.get?_set_self]
    exact ⟨fun _ => ⟨number, rfl, by omega, by omega⟩, fun _ => rfl⟩
  · rw [OrderedMap.get?_set_of_ne _ _ same, numbered key stemmed]
    constructor
    · rintro ⟨other, otherKey, low, high⟩
      exact ⟨other, otherKey, low, by omega⟩
    · rintro ⟨other, otherKey, low, high⟩
      have different : other.toNat ≠ count + 1 := by
        intro equal
        have : other = number := UInt32.toNat_inj.mp (by omega)
        exact same (by rw [otherKey, this])
      exact ⟨other, otherKey, low, by omega⟩

theorem NumberedTo.congr {db other : ByteStore} {stem : Bytes} {count : Nat}
    (numbered : NumberedTo db stem count)
    (same : ∀ key, stem <+: key → other.get? key = db.get? key) :
    NumberedTo other stem count := by
  intro key stemmed
  rw [same key stemmed]
  exact numbered key stemmed

theorem NumberedTo.set_outside {db : ByteStore} {stem : Bytes} {count : Nat}
    (numbered : NumberedTo db stem count) {key : Bytes} (outside : ¬ stem <+: key)
    (value : Bytes) : NumberedTo (db.set key value) stem count := by
  apply numbered.congr
  intro other stemmed
  apply OrderedMap.get?_set_of_ne
  rintro rfl
  exact outside stemmed

theorem NumberedTo.scan_last {db : ByteStore} {stem : Bytes} {count : Nat}
    (numbered : NumberedTo db stem count) (small : count < 0xff000000) :
    ((scanPrefix db stem).getLast?).map Prod.fst =
      if count = 0 then none else some (numberedKey stem (UInt32.ofNat count)) := by
  have inFamily : ∀ entry ∈ scanPrefix db stem, ∃ number : UInt32,
      entry.1 = numberedKey stem number ∧ 1 ≤ number.toNat ∧ number.toNat ≤ count := by
    intro entry member
    obtain ⟨stored, suffix, keyEq, _low⟩ := (mem_scanPrefix db stem entry).mp member
    apply (numbered entry.1 ⟨suffix, keyEq.symm⟩).mp
    rw [stored]
    rfl
  have wide : (UInt32.ofNat count).toNat = count := by
    rw [UInt32.toNat_ofNat', Nat.mod_eq_of_lt (by omega)]
  have lastMember : count ≠ 0 → ∃ value,
      (numberedKey stem (UInt32.ofNat count), value) ∈ scanPrefix db stem := by
    intro positive
    have present := (numbered.get?_isSome_iff (UInt32.ofNat count)).mpr (by omega)
    obtain ⟨value, stored⟩ := Option.isSome_iff_exists.mp present
    exact ⟨value, mem_scanPrefix_of_small stored (by rw [wide]; exact small)⟩
  cases atEnd : (scanPrefix db stem).getLast? with
  | none =>
      have none : count = 0 := by
        by_contra positive
        obtain ⟨value, member⟩ := lastMember positive
        rw [List.getLast?_eq_none_iff.mp atEnd] at member
        cases member
      rw [if_pos none]
      rfl
  | some final =>
      obtain ⟨number, keyEq, low, high⟩ := inFamily final (List.mem_of_getLast? atEnd)
      obtain ⟨value, member⟩ := lastMember (by omega)
      have greatest : numberedKey stem (UInt32.ofNat count) ≤ final.1 :=
        OrderedMap.le_of_range_getLast? db atEnd member
      rw [keyEq, numberedKey_le_iff, wide] at greatest
      have same : number = UInt32.ofNat count := UInt32.toNat_inj.mp (by omega)
      rw [if_neg (by omega), Option.map_some, keyEq, same]

/-! ### Logs -/

structure Logged (db : ByteStore) (stem : Bytes) (values : List Bytes) : Prop where
  numbered : NumberedTo db stem values.length
  stored : ∀ (index : Nat) (number : UInt32), number.toNat = index + 1 →
    db.get? (numberedKey stem number) = values[index]?

theorem logged_nil {db : ByteStore} {stem : Bytes}
    (empty : ∀ key, stem <+: key → db.get? key = none) : Logged db stem [] := by
  constructor
  · intro key stemmed
    rw [empty key stemmed]
    constructor
    · intro present
      cases present
    · rintro ⟨number, _same, low, high⟩
      rw [List.length_nil] at high
      omega
  · intro index number _next
    rw [empty _ (prefix_numberedKey stem number)]
    rfl

theorem Logged.append {db : ByteStore} {stem : Bytes} {values : List Bytes}
    (logged : Logged db stem values) {number : UInt32} (next : number.toNat = values.length + 1)
    (value : Bytes) : Logged (db.set (numberedKey stem number) value) stem (values ++ [value]) := by
  constructor
  · rw [List.length_append, List.length_singleton]
    exact logged.numbered.set_next next value
  · intro index other position
    by_cases last : index = values.length
    · have same : other = number := UInt32.toNat_inj.mp (by omega)
      rw [same, OrderedMap.get?_set_self, last, List.getElem?_concat_length]
    · have different : numberedKey stem other ≠ numberedKey stem number := by
        rw [Ne, numberedKey_inj]
        rintro rfl
        omega
      rw [OrderedMap.get?_set_of_ne _ _ different, logged.stored index other position]
      by_cases early : index < values.length
      · rw [List.getElem?_append_left early]
      · rw [List.getElem?_eq_none (by omega), List.getElem?_eq_none]
        rw [List.length_append, List.length_singleton]
        omega

theorem Logged.set_outside {db : ByteStore} {stem : Bytes} {values : List Bytes}
    (logged : Logged db stem values) {key : Bytes} (outside : ¬ stem <+: key) (value : Bytes) :
    Logged (db.set key value) stem values := by
  refine ⟨logged.numbered.set_outside outside value, fun index number position => ?_⟩
  have different : numberedKey stem number ≠ key := by
    rintro rfl
    exact outside (prefix_numberedKey stem number)
  rw [OrderedMap.get?_set_of_ne _ _ different]
  exact logged.stored index number position

end Pttbbs.Lib
