/-
The buffer of read marks stays a list of records.

The bytes in use are the records one after the other, perhaps followed by bytes
that are no record.  The searches find the records at their places, and taking a
record out, cutting it down and putting one in front are the same operations on
the list of records.
-/

import Mathlib.Data.List.Nodup
import Pttbbs.Lib.Runs
import Pttbbs.Mbbsd.Brc

namespace Pttbbs.Mbbsd.ReadMarks

open Pttbbs.Lib

/-! ### Numbers -/

@[simp] theorem littleEndian_length (width value : Nat) :
    (littleEndian width value).length = width := by
  rw [littleEndian, List.length_reverse, bigEndian_length]

theorem fromLittleEndian_littleEndian (width value : Nat) (bound : value < 256 ^ width) :
    fromLittleEndian (littleEndian width value) = value := by
  rw [fromLittleEndian, littleEndian, List.reverse_reverse, fromBigEndian_bigEndian width value bound]

theorem ofNat_littleEndian (value : UInt32) :
    UInt32.ofNat (fromLittleEndian (littleEndian 4 value.toNat)) = value := by
  rw [fromLittleEndian_littleEndian 4 value.toNat value.toNat_lt, UInt32.ofNat_toNat]

/-! ### Records -/

structure Record where
  bid : UInt32
  list : List BrcRec
  some' : 1 ≤ list.length
  fits : list.length ≤ brcMaxNum

namespace Record

def bytes (record : Record) : Bytes := recordBytes record.bid record.list

def cut (record : Record) : Record where
  bid := record.bid
  list := record.list.take 1
  some' := by
    rw [List.length_take]
    exact Nat.le_min.mpr ⟨Nat.le_refl 1, record.some'⟩
  fits := (List.length_take_le 1 record.list).trans (by decide)

theorem cut_length (record : Record) : record.cut.list.length = 1 := by
  change (record.list.take 1).length = 1
  rw [List.length_take]
  exact Nat.min_eq_left record.some'

end Record

def encode (records : List Record) : Bytes := records.flatMap Record.bytes

theorem entries_length (list : List BrcRec) :
    (list.flatMap BrcRec.bytes).length = list.length * recSize := by
  induction list with
  | nil => rfl
  | cons entry rest ih =>
      rw [List.flatMap_cons, List.length_append, ih, List.length_cons, BrcRec.bytes,
        List.length_append, littleEndian_length, littleEndian_length]
      unfold recSize
      omega

theorem recordBytes_length (bid : UInt32) (list : List BrcRec) :
    (recordBytes bid list).length = recordSize list.length := by
  simp only [recordBytes, List.length_append, littleEndian_length, entries_length, recordSize,
    headerSize]

theorem Record.bytes_length (record : Record) :
    record.bytes.length = recordSize record.list.length :=
  recordBytes_length record.bid record.list

theorem encode_append (before after : List Record) :
    encode (before ++ after) = encode before ++ encode after :=
  List.flatMap_append

theorem encode_cons (record : Record) (rest : List Record) :
    encode (record :: rest) = record.bytes ++ encode rest :=
  List.flatMap_cons

theorem recordSize_large {num : Nat} (some' : 1 ≤ num) : headerSize + recSize ≤ recordSize num := by
  unfold recordSize headerSize recSize
  omega

theorem brcReadBid_recordBytes (bid : UInt32) (list : List BrcRec) (rest : Bytes) :
    brcReadBid (recordBytes bid list ++ rest) = bid := by
  have front : (recordBytes bid list ++ rest).take 4 = littleEndian 4 bid.toNat := by
    rw [recordBytes, List.append_assoc, List.append_assoc]
    exact List.take_left' (littleEndian_length 4 _)
  rw [brcReadBid, front, ofNat_littleEndian]

theorem brcReadNum_recordBytes {bid : UInt32} {list : List BrcRec} (rest : Bytes)
    (fits : list.length ≤ brcMaxNum) : brcReadNum (recordBytes bid list ++ rest) = list.length := by
  have middle : ((recordBytes bid list ++ rest).drop 4).take 2 = littleEndian 2 list.length := by
    rw [recordBytes, List.append_assoc, List.append_assoc,
      List.drop_left' (littleEndian_length 4 _)]
    exact List.take_left' (littleEndian_length 2 _)
  rw [brcReadNum, middle]
  apply fromLittleEndian_littleEndian
  unfold brcMaxNum at fits
  omega

def Dangling (rest : Bytes) : Prop :=
  headerSize < rest.length → rest.length < recordSize (brcReadNum rest)

theorem dangling_nil : Dangling [] := nofun

section Search

variable {bid : UInt32} {dangling : Bytes}

theorem findRecordFrom_cons (record : Record) (rest : Bytes) (fuel offset : Nat) :
    findRecordFrom bid (fuel + 1) offset (record.bytes ++ rest) =
      if record.bid = bid then .found offset record.list.length
      else findRecordFrom bid fuel (offset + recordSize record.list.length) rest := by
  have length := record.bytes_length
  have large := recordSize_large record.some'
  have num : brcReadNum (record.bytes ++ rest) = record.list.length :=
    brcReadNum_recordBytes rest record.fits
  have header : headerSize < (record.bytes ++ rest).length := by
    rw [List.length_append]
    unfold recSize at large
    omega
  have complete : ¬ (record.bytes ++ rest).length < recordSize record.list.length := by
    rw [List.length_append]
    omega
  have own : brcReadBid (record.bytes ++ rest) = record.bid := brcReadBid_recordBytes _ _ rest
  rw [findRecordFrom, if_pos header]
  simp only [num, own, if_neg complete, List.drop_left' length]

theorem findRecordFrom_missing {records : List Record} (isDangling : Dangling dangling)
    (absent : ∀ record ∈ records, record.bid ≠ bid) {fuel : Nat} (offset : Nat)
    (enough : (encode records ++ dangling).length ≤ fuel) :
    findRecordFrom bid fuel offset (encode records ++ dangling) =
      .missing (if headerSize < dangling.length then dangling.length else 0) := by
  induction records generalizing fuel offset with
  | nil =>
      change findRecordFrom bid fuel offset dangling = _
      cases fuel with
      | zero =>
          have empty : dangling.length = 0 := Nat.le_zero.mp enough
          rw [findRecordFrom, empty]
          rfl
      | succ fuel =>
          rw [findRecordFrom]
          by_cases header : headerSize < dangling.length
          · simp only [if_pos header, if_pos (isDangling header)]
          · simp only [if_neg header]
  | cons record rest ih =>
      rw [encode_cons, List.append_assoc] at enough ⊢
      have length := record.bytes_length
      have large := recordSize_large record.some'
      rw [List.length_append, length] at enough
      cases fuel with
      | zero =>
          unfold recSize at large
          omega
      | succ fuel =>
          rw [findRecordFrom_cons, if_neg (absent record List.mem_cons_self)]
          apply ih (fun other member => absent other (List.mem_cons_of_mem record member))
          unfold recSize at large
          omega

theorem findRecordFrom_found {before after : List Record} {record : Record}
    (absent : ∀ other ∈ before, other.bid ≠ bid) (same : record.bid = bid) {fuel : Nat}
    (offset : Nat) (enough : (encode (before ++ record :: after) ++ dangling).length ≤ fuel) :
    findRecordFrom bid fuel offset (encode (before ++ record :: after) ++ dangling) =
      .found (offset + (encode before).length) record.list.length := by
  induction before generalizing fuel offset with
  | nil =>
      rw [List.nil_append, encode_cons, List.append_assoc] at enough ⊢
      have large := recordSize_large record.some'
      rw [List.length_append, record.bytes_length] at enough
      cases fuel with
      | zero =>
          unfold recSize at large
          omega
      | succ fuel =>
          rw [findRecordFrom_cons, if_pos same]
          rfl
  | cons first rest ih =>
      rw [List.cons_append, encode_cons, List.append_assoc] at enough ⊢
      have large := recordSize_large first.some'
      rw [List.length_append, first.bytes_length] at enough
      cases fuel with
      | zero =>
          unfold recSize at large
          omega
      | succ fuel =>
          rw [findRecordFrom_cons, if_neg (absent first List.mem_cons_self),
            ih (fun other member => absent other (List.mem_cons_of_mem first member)) _
              (by unfold recSize at large; omega),
            encode_cons, List.length_append, first.bytes_length, Nat.add_assoc]

end Search

def lastOf (accepts : UInt32 → Nat → Bool) :
    Nat → List Record → Option (Nat × Nat) → Option (Nat × Nat)
  | _, [], last => last
  | offset, record :: rest, last =>
      lastOf accepts (offset + recordSize record.list.length) rest
        (if accepts record.bid record.list.length then some (offset, record.list.length) else last)

theorem lastRecordFrom_encode (accepts : UInt32 → Nat → Bool) {records : List Record}
    {fuel : Nat} (offset : Nat) (last : Option (Nat × Nat))
    (enough : (encode records).length ≤ fuel) :
    lastRecordFrom accepts fuel offset (encode records) last = lastOf accepts offset records last := by
  induction records generalizing fuel offset last with
  | nil =>
      cases fuel with
      | zero => rfl
      | succ fuel => rfl
  | cons record rest ih =>
      rw [encode_cons] at enough ⊢
      have length := record.bytes_length
      have large := recordSize_large record.some'
      rw [List.length_append, length] at enough
      cases fuel with
      | zero =>
          unfold recSize at large
          omega
      | succ fuel =>
          have num : brcReadNum (record.bytes ++ encode rest) = record.list.length :=
            brcReadNum_recordBytes _ record.fits
          have own : brcReadBid (record.bytes ++ encode rest) = record.bid :=
            brcReadBid_recordBytes _ _ _
          have header : headerSize < (record.bytes ++ encode rest).length := by
            rw [List.length_append]
            unfold recSize at large
            omega
          have complete : ¬ (record.bytes ++ encode rest).length < recordSize record.list.length := by
            rw [List.length_append]
            omega
          rw [lastRecordFrom, if_pos header]
          simp only [num, own, if_neg complete, List.drop_left' length]
          apply ih
          unfold recSize at large
          omega

theorem lastOf_split {accepts : UInt32 → Nat → Bool} {records : List Record} {offset : Nat}
    {last : Option (Nat × Nat)} {place num : Nat}
    (result : lastOf accepts offset records last = some (place, num)) :
    (last = some (place, num) ∧
        ∀ other ∈ records, accepts other.bid other.list.length = false) ∨
      ∃ before record after, records = before ++ record :: after ∧
        accepts record.bid record.list.length = true ∧
        (∀ other ∈ after, accepts other.bid other.list.length = false) ∧
        place = offset + (encode before).length ∧ num = record.list.length := by
  induction records generalizing offset last with
  | nil => exact .inl ⟨result, nofun⟩
  | cons first rest ih =>
      rcases ih result with
        ⟨here, refused⟩ | ⟨before, record, after, rfl, accepted, refused, rfl, rfl⟩
      · split at here
        · rename_i accepted
          cases here
          exact .inr ⟨[], first, rest, rfl, accepted, refused, rfl, rfl⟩
        · rename_i rejected
          refine .inl ⟨here, fun other member => ?_⟩
          rcases List.mem_cons.mp member with rfl | inRest
          · exact Bool.not_eq_true _ ▸ rejected
          · exact refused other inRest
      · refine .inr ⟨first :: before, record, after, rfl, accepted, refused, ?_, rfl⟩
        rw [encode_cons, List.length_append, first.bytes_length, Nat.add_assoc]

theorem lastRecord_encode {accepts : UInt32 → Nat → Bool} {records : List Record}
    {place num : Nat} (result : lastRecord accepts (encode records) = some (place, num)) :
    ∃ before record after, records = before ++ record :: after ∧
      accepts record.bid record.list.length = true ∧
      (∀ other ∈ after, accepts other.bid other.list.length = false) ∧
      place = (encode before).length ∧ num = record.list.length := by
  rw [lastRecord, lastRecordFrom_encode accepts 0 none (Nat.le_refl _)] at result
  obtain ⟨before, record, after, split, accepted, refused, here, count⟩ :=
    (lastOf_split result).resolve_left nofun
  exact ⟨before, record, after, split, accepted, refused, by rw [here, Nat.zero_add], count⟩

/-! ### Memory -/

section Memory

variable {before middle after spare : Bytes}

theorem memmove_over :
    before ++ after <+:
      memmove (before ++ middle ++ after ++ spare) before.length
        (before.length + middle.length) after.length := by
  have front : (before ++ middle ++ after ++ spare).take before.length = before := by
    rw [List.append_assoc, List.append_assoc]
    exact List.take_left
  have chunk : ((before ++ middle ++ after ++ spare).drop
      (before.length + middle.length)).take after.length = after := by
    rw [List.append_assoc, ← List.length_append, List.drop_left]
    exact List.take_left
  rw [memmove, front, chunk]
  exact List.prefix_append _ _

theorem memmove_up {buf content : Bytes} {room : Nat} (held : content <+: buf)
    (fits : room ≤ buf.length) :
    ∃ gap spare : Bytes, gap.length = room ∧
      memmove buf room 0 content.length = gap ++ (content ++ spare) := by
  refine ⟨buf.take room, buf.drop (room + content.length), ?_, ?_⟩
  · rw [List.length_take]
    exact Nat.min_eq_left fits
  · rw [memmove, List.drop_zero, List.prefix_iff_eq_take.mp held, List.length_take,
      List.append_assoc]
    rw [Nat.min_eq_left held.length_le]

theorem memwrite_over {old bytes : Bytes} (same : old.length = bytes.length) :
    memwrite (before ++ (old ++ after)) before.length bytes = before ++ (bytes ++ after) := by
  have rest : (before ++ (old ++ after)).drop (before.length + bytes.length) = after := by
    rw [← same, ← List.append_assoc, ← List.length_append]
    exact List.drop_left
  rw [memwrite, List.take_left, rest, List.append_assoc]

theorem memwrite_front {old bytes : Bytes} (same : old.length = bytes.length) :
    memwrite (old ++ after) 0 bytes = bytes ++ after :=
  @memwrite_over [] after old bytes same

end Memory

/-! ### The buffer and its records -/

structure Holds (brc : Brc) (content : Bytes) : Prop where
  size : brc.size = content.length
  held : content <+: brc.buf

theorem Holds.content_eq {brc : Brc} {content : Bytes} (holds : Holds brc content) :
    brc.content = content := by
  rw [Brc.content, holds.size]
  exact (List.prefix_iff_eq_take.mp holds.held).symm

theorem Holds.size_le_alloc {brc : Brc} {content : Bytes} (holds : Holds brc content) :
    brc.size ≤ brc.alloc := by
  rw [holds.size]
  exact holds.held.length_le

def From (sources : List Record) (record : Record) : Prop :=
  ∃ source ∈ sources, source.bid = record.bid ∧ record.list <+: source.list

structure Reduced (old new : List Record) : Prop where
  bids : (new.map Record.bid).Sublist (old.map Record.bid)
  origin : ∀ record ∈ new, From old record

namespace Reduced

theorem of_sublist {old new : List Record} (sublist : new.Sublist old) : Reduced old new where
  bids := sublist.map Record.bid
  origin := fun record member => ⟨record, sublist.subset member, rfl, List.prefix_rfl⟩

theorem refl (records : List Record) : Reduced records records :=
  of_sublist (List.Sublist.refl records)

theorem trans {old middle new : List Record} (first : Reduced old middle)
    (second : Reduced middle new) : Reduced old new where
  bids := second.bids.trans first.bids
  origin := by
    intro record member
    obtain ⟨between, inMiddle, bid, shorter⟩ := second.origin record member
    obtain ⟨origin, inOld, bid', shorter'⟩ := first.origin between inMiddle
    exact ⟨origin, inOld, bid'.trans bid, shorter.trans shorter'⟩

theorem of_cut (before after : List Record) (record : Record) :
    Reduced (before ++ record :: after) (before ++ record.cut :: after) where
  bids := by
    rw [List.map_append, List.map_append, List.map_cons, List.map_cons]
    exact List.Sublist.refl _
  origin := by
    intro other member
    rw [List.mem_append, List.mem_cons] at member
    rcases member with inBefore | rfl | inAfter
    · exact ⟨other, List.mem_append_left _ inBefore, rfl, List.prefix_rfl⟩
    · exact ⟨record, List.mem_append_right _ List.mem_cons_self, rfl, List.take_prefix 1 _⟩
    · exact ⟨other, List.mem_append_right _ (List.mem_cons_of_mem _ inAfter), rfl,
        List.prefix_rfl⟩

theorem absent {old new : List Record} {bid : UInt32} (reduced : Reduced old new)
    (absent : ∀ record ∈ old, record.bid ≠ bid) : ∀ record ∈ new, record.bid ≠ bid := by
  intro record member same
  obtain ⟨origin, inOld, bid, _shorter⟩ := reduced.origin record member
  exact absent origin inOld (bid.trans same)

end Reduced

section Effects

variable {brc : Brc} {before after : List Record} {record : Record}

theorem Holds.takeOut_found {tail : Bytes}
    (holds : Holds brc (encode (before ++ record :: after) ++ tail)) :
    Holds (brc.takeOut (.found (encode before).length record.list.length))
      (encode (before ++ after) ++ tail) := by
  have size := holds.size
  obtain ⟨spare, split⟩ := holds.held
  rw [encode_append, encode_cons] at size split
  rw [encode_append]
  simp only [List.length_append, record.bytes_length] at size
  have count : brc.size - ((encode before).length + recordSize record.list.length) =
      (encode after ++ tail).length := by
    rw [List.length_append]
    omega
  have whole : encode before ++ record.bytes ++ (encode after ++ tail) ++ spare = brc.buf := by
    rw [← split]
    simp only [List.append_assoc]
  constructor
  · change brc.size - recordSize record.list.length = _
    simp only [List.length_append]
    omega
  · change _ <+: memmove brc.buf _ _ _
    rw [count, ← whole, ← record.bytes_length, List.append_assoc]
    exact memmove_over

theorem Holds.cut (holds : Holds brc (encode (before ++ record :: after))) :
    Holds (brc.cut (encode before).length record.list.length)
      (encode (before ++ record.cut :: after)) := by
  have size := holds.size
  obtain ⟨spare, split⟩ := holds.held
  obtain ⟨first, rest, entries⟩ : ∃ first rest, record.list = first :: rest :=
    List.exists_cons_of_length_pos record.some'
  -- the record before and after its count has been written
  have old : record.bytes = littleEndian 4 record.bid.toNat ++
      (littleEndian 2 record.list.length ++ (first.bytes ++ rest.flatMap BrcRec.bytes)) := by
    rw [Record.bytes, recordBytes, entries, List.flatMap_cons, List.append_assoc]
  have new : record.cut.bytes = littleEndian 4 record.bid.toNat ++
      (littleEndian 2 1 ++ first.bytes) := by
    simp [Record.bytes, recordBytes, Record.cut, entries]
  have length := record.bytes_length
  have cutLength : record.cut.bytes.length = recordSize 1 := by
    rw [record.cut.bytes_length, record.cut_length]
  rw [encode_append, encode_cons] at size split
  rw [encode_append, encode_cons]
  simp only [List.length_append, length] at size
  have whole : brc.buf = (encode before ++ littleEndian 4 record.bid.toNat) ++
      (littleEndian 2 record.list.length ++
        (first.bytes ++ rest.flatMap BrcRec.bytes ++ (encode after ++ spare))) := by
    rw [← split, old]
    simp only [List.append_assoc]
  have place : (encode before).length + 4 =
      (encode before ++ littleEndian 4 record.bid.toNat).length := by
    rw [List.length_append, littleEndian_length]
  have written : memwrite brc.buf ((encode before).length + 4) (littleEndian 2 1) =
      encode before ++ record.cut.bytes ++ rest.flatMap BrcRec.bytes ++ encode after ++ spare := by
    rw [whole, place, memwrite_over (by rw [littleEndian_length, littleEndian_length]), new]
    simp only [List.append_assoc]
  have restLength : (rest.flatMap BrcRec.bytes).length + recordSize 1 =
      recordSize record.list.length := by
    rw [entries_length, entries, List.length_cons]
    unfold recordSize recSize
    omega
  have count : brc.size - ((encode before).length + recordSize record.list.length) =
      (encode after).length := by
    omega
  constructor
  · change brc.size - (recordSize record.list.length - recordSize 1) = _
    rw [List.length_append, List.length_append, cutLength]
    omega
  · change _ <+: memmove (memwrite brc.buf _ _) _ _ _
    rw [written, count, ← cutLength, ← restLength, ← List.append_assoc]
    have target : (encode before).length + record.cut.bytes.length =
        (encode before ++ record.cut.bytes).length := List.length_append.symm
    have source : (encode before).length + ((rest.flatMap BrcRec.bytes).length + recordSize 1) =
        (encode before ++ record.cut.bytes).length + (rest.flatMap BrcRec.bytes).length := by
      rw [List.length_append, cutLength]
      omega
    rw [target, source]
    exact memmove_over

end Effects

/-! ### Compaction -/

theorem brcCompact_holds (needed : Nat) (protectBid : UInt32) (fuel : Nat) {brc : Brc}
    {records : List Record} (holds : Holds brc (encode records)) :
    ∃ left, Holds (brcCompact needed protectBid fuel brc) (encode left) ∧
      Reduced records left := by
  induction fuel generalizing brc records with
  | zero => exact ⟨records, holds, Reduced.refl records⟩
  | succ fuel ih =>
      rw [brcCompact]
      split
      · rw [holds.content_eq]
        split
        · exact ⟨records, holds, Reduced.refl records⟩
        · rename_i place num found
          obtain ⟨before, record, after, rfl, _accepted, _refused, rfl, rfl⟩ :=
            lastRecord_encode found
          obtain ⟨left, held, reduced⟩ := ih holds.cut
          exact ⟨left, held, (Reduced.of_cut before after record).trans reduced⟩
      · exact ⟨records, holds, Reduced.refl records⟩

theorem lastOf_none {accepts : UInt32 → Nat → Bool} {offset : Nat} {records : List Record}
    {last : Option (Nat × Nat)} (result : lastOf accepts offset records last = none) :
    last = none ∧ ∀ record ∈ records, accepts record.bid record.list.length = false := by
  induction records generalizing offset last with
  | nil => exact ⟨result, nofun⟩
  | cons first rest ih =>
      obtain ⟨none, refused⟩ := ih result
      split at none
      · cases none
      · rename_i rejected
        refine ⟨none, fun record member => ?_⟩
        rcases List.mem_cons.mp member with rfl | inRest
        · exact Bool.not_eq_true _ ▸ rejected
        · exact refused record inRest

theorem lastRecord_none {accepts : UInt32 → Nat → Bool} {records : List Record}
    (result : lastRecord accepts (encode records) = none) :
    ∀ record ∈ records, accepts record.bid record.list.length = false := by
  rw [lastRecord, lastRecordFrom_encode accepts 0 none (Nat.le_refl _)] at result
  exact (lastOf_none result).2

theorem Record.bytes_pos (record : Record) : 0 < record.bytes.length := by
  rw [record.bytes_length]
  unfold recordSize headerSize
  omega

theorem encode_length_eq_zero {records : List Record} (none : (encode records).length = 0) :
    records = [] := by
  cases records with
  | nil => rfl
  | cons first rest =>
      rw [encode_cons, List.length_append] at none
      have positive := first.bytes_pos
      omega

theorem brcCompactTailDrop_holds {needed : Nat} (fits : needed ≤ brcMaxSize) {fuel : Nat}
    {brc : Brc} {records : List Record} (holds : Holds brc (encode records))
    (enough : brc.size ≤ fuel) :
    ∃ left, Holds (brcCompactTailDrop needed fuel brc) (encode left) ∧ Reduced records left ∧
      (brcCompactTailDrop needed fuel brc).size + needed ≤ brcMaxSize ∧
      (brcCompactTailDrop needed fuel brc).buf = brc.buf := by
  induction fuel generalizing brc records with
  | zero =>
      refine ⟨records, holds, Reduced.refl records, ?_, rfl⟩
      change brc.size + needed ≤ brcMaxSize
      omega
  | succ fuel ih =>
      rw [brcCompactTailDrop]
      split
      · rw [holds.content_eq]
        split
        · rename_i full _search nothing
          have empty : records = [] := by
            cases records with
            | nil => rfl
            | cons first rest =>
                exact Bool.noConfusion (lastRecord_none nothing first List.mem_cons_self)
          have size := holds.size
          rw [empty] at size
          exact absurd size (Nat.ne_of_gt full.2)
        · rename_i place num found
          obtain ⟨before, record, after, rfl, _accepted, _refused, rfl, rfl⟩ :=
            lastRecord_encode found
          have size := holds.size
          have held := holds.held
          rw [encode_append, encode_cons, List.length_append, List.length_append] at size
          rw [encode_append] at held
          have shorter : Holds { brc with size := (encode before).length } (encode before) :=
            ⟨rfl, (List.prefix_append _ _).trans held⟩
          have positive := record.bytes_pos
          obtain ⟨left, held, reduced, room, same⟩ :=
            ih shorter (by change (encode before).length ≤ fuel; omega)
          have sublist : before.Sublist (before ++ record :: after) :=
            List.sublist_append_left before _
          exact ⟨left, held, (Reduced.of_sublist sublist).trans reduced, room, same⟩
      · rename_i fine
        refine ⟨records, holds, Reduced.refl records, ?_, rfl⟩
        omega

/-! ### Room -/

@[simp] theorem freshBytes_length (session : Session) (start count : Nat) :
    (freshBytes session start count).length = count := by
  rw [freshBytes, List.length_map, List.length_range]

theorem prefix_enlargeFor (session : Session) (needed fuel : Nat) (buf : Bytes) :
    buf <+: enlargeFor session needed fuel buf := by
  induction fuel generalizing buf with
  | zero => exact List.prefix_rfl
  | succ fuel ih =>
      rw [enlargeFor]
      split
      · exact (List.prefix_append _ _).trans (ih _)
      · exact List.prefix_rfl

theorem enlargeFor_room (session : Session) (needed : Nat) {fuel : Nat} {buf : Bytes}
    (enough : brcMaxSize ≤ fuel + buf.length) :
    needed ≤ (enlargeFor session needed fuel buf).length ∨
      brcMaxSize ≤ (enlargeFor session needed fuel buf).length := by
  induction fuel generalizing buf with
  | zero =>
      right
      change brcMaxSize ≤ buf.length
      omega
  | succ fuel ih =>
      rw [enlargeFor]
      split
      · apply ih
        rw [List.length_append, freshBytes_length, brcBlockSize]
        omega
      · omega

/-! ### Writing -/

section Writing

variable {session : Session} {bid : UInt32}

theorem recordSize_fits {num : Nat} (fits : num ≤ brcMaxNum) :
    recordSize num ≤ brcMaxSize := by
  unfold recordSize headerSize recSize brcMaxSize
  unfold brcMaxNum at fits
  omega

theorem brcPutRecord_writes {first : BrcRec} {rest : List BrcRec} {gap tail : Bytes}
    (current : session.expireTime < first.create) (fits : (first :: rest).length ≤ brcMaxNum)
    (room : gap.length = recordSize (first :: rest).length) :
    brcPutRecord session (gap ++ tail) (recordSize (first :: rest).length) bid (first :: rest) =
      recordBytes bid (first :: rest) ++ tail := by
  have header : headerSize < recordSize (first :: rest).length := by
    unfold recordSize recSize
    rw [List.length_cons]
    omega
  have all : (first :: rest).take brcMaxNum = first :: rest := List.take_of_length_le fits
  rw [brcPutRecord, if_pos ⟨current, header⟩]
  simp only [all, if_pos (Nat.le_refl _)]
  -- the room in front is a header and the entries
  obtain ⟨head, entries, rfl, headLength⟩ : ∃ head entries : Bytes, gap = head ++ entries ∧
      head.length = headerSize :=
    ⟨gap.take headerSize, gap.drop headerSize, (List.take_append_drop _ _).symm, by
      rw [List.length_take]
      omega⟩
  have entriesLength : entries.length = ((first :: rest).flatMap BrcRec.bytes).length := by
    rw [List.length_append, headLength] at room
    rw [entries_length]
    unfold recordSize at room
    omega
  have headed : memwrite (head ++ entries ++ tail) 0
      (littleEndian 4 bid.toNat ++ littleEndian 2 (first :: rest).length) =
      (littleEndian 4 bid.toNat ++ littleEndian 2 (first :: rest).length) ++
        (entries ++ tail) := by
    rw [List.append_assoc]
    apply memwrite_front
    rw [headLength, List.length_append, littleEndian_length, littleEndian_length]
    rfl
  have place : headerSize =
      (littleEndian 4 bid.toNat ++ littleEndian 2 (first :: rest).length).length := by
    rw [List.length_append, littleEndian_length, littleEndian_length]
    rfl
  rw [headed, place, memwrite_over entriesLength, recordBytes]
  simp only [List.append_assoc]

end Writing

/-- The first entry is after the expiry time, so that `brc_putrecord` writes the record. -/
def Current (session : Session) (list : List BrcRec) : Prop :=
  ∃ first ∈ list.head?, session.expireTime < first.create

instance (session : Session) (list : List BrcRec) : Decidable (Current session list) :=
  inferInstanceAs (Decidable (∃ first ∈ list.head?, session.expireTime < first.create))

theorem Current.exists_cons {session : Session} {list : List BrcRec}
    (current : Current session list) :
    ∃ first rest, list = first :: rest ∧ session.expireTime < first.create := by
  obtain ⟨first, isHead, later⟩ := current
  cases list with
  | nil => cases isHead
  | cons head rest =>
      cases isHead
      exact ⟨first, rest, rfl, later⟩

theorem brcPutRecord_old {session : Session} {list : List BrcRec} (old : ¬ Current session list)
    {buf : Bytes} {endp : Nat} {bid : UInt32} : brcPutRecord session buf endp bid list = buf := by
  unfold brcPutRecord
  split
  · rfl
  · rename_i first rest
    rw [if_neg]
    rintro ⟨later, _header⟩
    exact old ⟨first, rfl, later⟩

theorem Current.take_one {session : Session} {list : List BrcRec}
    (current : Current session list) : Current session (list.take 1) := by
  obtain ⟨first, rest, rfl, later⟩ := current.exists_cons
  exact ⟨first, rfl, later⟩

section InFront

variable {session : Session} {brc : Brc} {record : Record}

theorem Holds.written {content : Bytes} (holds : Holds brc content)
    (current : Current session record.list)
    (room : recordSize record.list.length + brc.size ≤ brc.buf.length) :
    Holds
      { brc with
        buf := brcPutRecord session (memmove brc.buf (recordSize record.list.length) 0 brc.size)
          (recordSize record.list.length) record.bid record.list
        size := brc.size + recordSize record.list.length }
      (record.bytes ++ content) := by
  obtain ⟨gap, spare, gapLength, moved⟩ :=
    memmove_up holds.held (show recordSize record.list.length ≤ brc.buf.length by omega)
  have fits := record.fits
  have length := record.bytes_length
  rw [Record.bytes] at length ⊢
  obtain ⟨first, rest, entries, later⟩ := current.exists_cons
  constructor
  · change brc.size + _ = _
    rw [List.length_append, length, holds.size, Nat.add_comm]
  · change _ <+: brcPutRecord _ (memmove _ _ _ brc.size) _ _ _
    rw [holds.size, moved]
    rw [entries] at fits gapLength ⊢
    rw [brcPutRecord_writes later fits gapLength, ← List.append_assoc]
    exact List.prefix_append _ _

theorem Holds.overwritten {old : Record} {rest : Bytes} (holds : Holds brc (old.bytes ++ rest))
    (current : Current session record.list)
    (same : recordSize record.list.length = recordSize old.list.length) :
    Holds
      { brc with
        buf := brcPutRecord session brc.buf (recordSize record.list.length) record.bid record.list
        changed := false }
      (record.bytes ++ rest) := by
  have fits := record.fits
  have length : old.bytes.length = recordSize record.list.length := by
    rw [old.bytes_length, same]
  obtain ⟨spare, split⟩ := holds.held
  rw [List.append_assoc] at split
  obtain ⟨first, others, entries, later⟩ := current.exists_cons
  constructor
  · change brc.size = _
    rw [holds.size, List.length_append, List.length_append, length, record.bytes_length]
  · change _ <+: brcPutRecord session brc.buf _ _ _
    rw [← split, Record.bytes]
    rw [entries] at fits length ⊢
    rw [brcPutRecord_writes later fits length, ← List.append_assoc]
    exact List.prefix_append _ _

theorem Holds.enlarged {content : Bytes} (holds : Holds brc content) (newSize : Nat) :
    let buf := enlargeFor session (brc.size + newSize) brcMaxSize
      (if brc.buf = [] then brcGetBuf session newSize else brc.buf)
    Holds { brc with buf := buf } content ∧
      (brc.size + newSize ≤ buf.length ∨ brcMaxSize ≤ buf.length) := by
  intro buf
  refine ⟨⟨holds.size, ?_⟩, enlargeFor_room session _ (Nat.le_add_right _ _)⟩
  change content <+: enlargeFor _ _ _ _
  refine List.IsPrefix.trans ?_ (prefix_enlargeFor session _ _ _)
  split
  · rename_i empty
    have held := holds.held
    rw [empty] at held
    rw [List.prefix_nil.mp held]
    exact List.nil_prefix
  · exact holds.held

theorem Holds.putInFront {records : List Record} (holds : Holds brc (encode records))
    (current : Current session record.list) :
    ∃ kept left, Holds (brc.putInFront session record.bid record.list) (encode (kept :: left)) ∧
      kept.bid = record.bid ∧ kept.list <+: record.list ∧ Reduced records left ∧
      (brc.putInFront session record.bid record.list).size ≤ brcMaxSize := by
  obtain ⟨compacted, isCompacted⟩ : ∃ compacted, compacted =
      (if brcMaxSize < brc.size + recordSize record.list.length then
        brcCompact (recordSize record.list.length) record.bid brc.size brc else brc) := ⟨_, rfl⟩
  obtain ⟨middle, held, reduced⟩ : ∃ middle, Holds compacted (encode middle) ∧
      Reduced records middle := by
    rw [isCompacted]
    split
    · exact brcCompact_holds _ _ _ holds
    · exact ⟨records, holds, Reduced.refl records⟩
  -- the record itself may have been cut down
  obtain ⟨kept, keptBid, keptList, shorter, keptCurrent⟩ : ∃ kept : Record,
      kept.bid = record.bid ∧
      kept.list = (if brcMaxSize < compacted.size + recordSize record.list.length ∧
        1 < record.list.length then record.list.take 1 else record.list) ∧
      kept.list <+: record.list ∧ Current session kept.list := by
    split
    · exact ⟨record.cut, rfl, rfl, List.take_prefix 1 _, current.take_one⟩
    · exact ⟨record, rfl, rfl, List.prefix_rfl, current⟩
  obtain ⟨enlarged, room⟩ := @Holds.enlarged session compacted _ held (recordSize kept.list.length)
  have fits := recordSize_fits kept.fits
  rw [Brc.putInFront, ← isCompacted]
  dsimp only
  rw [← keptList]
  generalize enlargeFor session (compacted.size + recordSize kept.list.length) brcMaxSize
    (if compacted.buf = [] then brcGetBuf session (recordSize kept.list.length)
      else compacted.buf) = buf at enlarged room ⊢
  obtain ⟨dropped, isDropped⟩ : ∃ dropped, dropped =
      (if brcMaxSize < compacted.size + recordSize kept.list.length then
        brcCompactTailDrop (recordSize kept.list.length) compacted.size { compacted with buf := buf }
      else { compacted with buf := buf }) := ⟨_, rfl⟩
  obtain ⟨left, held', reduced', space, same⟩ : ∃ left, Holds dropped (encode left) ∧
      Reduced middle left ∧ dropped.size + recordSize kept.list.length ≤ brcMaxSize ∧
      recordSize kept.list.length + dropped.size ≤ dropped.buf.length := by
    rw [isDropped]
    split
    · obtain ⟨left, held, reduced, space, same⟩ :=
        brcCompactTailDrop_holds fits enlarged (Nat.le_refl _)
      refine ⟨left, held, reduced, space, ?_⟩
      rw [same]
      change _ ≤ buf.length
      change (brcCompactTailDrop _ compacted.size _).size + _ ≤ _ at space
      omega
    · refine ⟨middle, enlarged, Reduced.refl middle, ?_, ?_⟩
      · change compacted.size + _ ≤ _
        omega
      · change _ + compacted.size ≤ buf.length
        omega
  rw [← isDropped, if_pos space, ← keptBid]
  exact ⟨kept, left, held'.written keptCurrent same, rfl, shorter, reduced.trans reduced', space⟩

end InFront

/-! ### One insertion -/

theorem prefix_trim (session : Session) (list : List BrcRec) : trim session list <+: list := by
  have suffix := List.dropWhile_suffix (l := list.reverse)
    fun entry : BrcRec => decide (entry.create < session.expireTime)
  have reversed := List.reverse_prefix.mpr suffix
  rwa [List.reverse_reverse] at reversed

def Record.trimmed (session : Session) (record : Record) (some' : trim session record.list ≠ []) :
    Record where
  bid := record.bid
  list := trim session record.list
  some' := List.length_pos_iff.mpr some'
  fits := (prefix_trim session record.list).length_le.trans record.fits

/-- What `brc_insert_record` relies on: the record is removed, or its first entry is after
the expiry time, or it takes the place of one of the same size at the beginning. -/
def Writes (session : Session) (brc : Brc) (record : Record) : Prop :=
  trim session record.list = [] ∨ Current session (trim session record.list) ∨
    brcFindRecordIn brc.content record.bid = .found 0 (trim session record.list).length

instance (session : Session) (brc : Brc) (record : Record) :
    Decidable (Writes session brc record) :=
  inferInstanceAs (Decidable (_ ∨ _ ∨ _))

structure Packed (sources : List Record) (brc : Brc) (records : List Record) : Prop where
  holds : Holds brc (encode records)
  nodup : (records.map Record.bid).Nodup
  sources : ∀ record ∈ records, From sources record
  small : brc.size ≤ brcMaxSize

section Insert

variable {session : Session} {brc : Brc} {record : Record} {sources records : List Record}

theorem From.shorten {middle : List Record} {record : Record}
    (all : ∀ record ∈ middle, From sources record) (origin : From middle record) :
    From sources record := by
  obtain ⟨between, member, bid, shorter⟩ := origin
  obtain ⟨source, inSources, bid', shorter'⟩ := all between member
  exact ⟨source, inSources, bid'.trans bid, shorter.trans shorter'⟩

theorem Packed.insert (packed : Packed sources brc records)
    (absent : ∀ other ∈ records, other.bid ≠ record.bid) (listed : record ∈ sources)
    (writes : trim session record.list = [] ∨ Current session (trim session record.list)) :
    ∃ left, Packed sources
      (if trim session record.list = [] then { brc with changed := false }
        else { brc.putInFront session record.bid (trim session record.list) with
          changed := false }) left := by
  split
  · exact ⟨records, ⟨packed.holds.1, packed.holds.2⟩, packed.nodup, packed.sources, packed.small⟩
  · rename_i some'
    obtain ⟨kept, left, holds, bid, shorter, reduced, small⟩ :=
      @Holds.putInFront session brc (record.trimmed session some') records packed.holds
        (writes.resolve_left some')
    refine ⟨kept :: left, ⟨holds.1, holds.2⟩, ?_, ?_, small⟩
    · rw [List.map_cons, List.nodup_cons]
      refine ⟨fun member => ?_, reduced.bids.nodup packed.nodup⟩
      obtain ⟨other, inLeft, same⟩ := List.mem_map.mp member
      exact reduced.absent absent other inLeft (same.trans bid)
    · intro other member
      rcases List.mem_cons.mp member with rfl | inLeft
      · exact ⟨record, listed, bid.symm, shorter.trans (prefix_trim session record.list)⟩
      · exact From.shorten packed.sources (reduced.origin other inLeft)

theorem brcFindRecordIn_missing {content dangling : Bytes} (isDangling : Dangling dangling)
    {bid : UInt32} (absent : ∀ record ∈ records, record.bid ≠ bid)
    (split : content = encode records ++ dangling) :
    brcFindRecordIn content bid =
      .missing (if headerSize < dangling.length then dangling.length else 0) := by
  rw [brcFindRecordIn, split]
  exact findRecordFrom_missing isDangling absent 0 (Nat.le_refl _)

theorem brcFindRecordIn_found {before after : List Record} {content dangling : Bytes}
    (absent : ∀ other ∈ before, other.bid ≠ record.bid)
    (split : content = encode (before ++ record :: after) ++ dangling) :
    brcFindRecordIn content record.bid = .found (encode before).length record.list.length := by
  rw [brcFindRecordIn, split, findRecordFrom_found absent rfl 0 (Nat.le_refl _), Nat.zero_add]

theorem Packed.overwrite {old : Record} (packed : Packed sources brc (old :: records))
    (same : old.bid = record.bid) (listed : record ∈ sources)
    (some' : trim session record.list ≠ [])
    (size : recordSize (trim session record.list).length = recordSize old.list.length) :
    ∃ left, Packed sources
      { brc with
        buf := brcPutRecord session brc.buf (recordSize (trim session record.list).length)
          record.bid (trim session record.list)
        changed := false } left := by
  by_cases current : Current session (trim session record.list)
  · have holds := packed.holds
    rw [encode_cons] at holds
    have written := @Holds.overwritten session brc (record.trimmed session some') _ _ holds current
      size
    refine ⟨record.trimmed session some' :: records, written, ?_, ?_, packed.small⟩
    · have nodup := packed.nodup
      rw [List.map_cons, same] at nodup
      exact nodup
    · intro other member
      rcases List.mem_cons.mp member with rfl | inRest
      · exact ⟨record, listed, rfl, prefix_trim session record.list⟩
      · exact packed.sources other (List.mem_cons_of_mem old inRest)
  · -- nothing is written
    rw [brcPutRecord_old current]
    exact ⟨old :: records, ⟨packed.holds.1, packed.holds.2⟩, packed.nodup, packed.sources,
      packed.small⟩

theorem Holds.search {dangling : Bytes} (holds : Holds brc (encode records ++ dangling))
    (isDangling : Dangling dangling) (nodup : (records.map Record.bid).Nodup) (bid : UInt32) :
    ((∀ other ∈ records, other.bid ≠ bid) ∧ brcFindRecordIn brc.content bid =
      .missing (if headerSize < dangling.length then dangling.length else 0)) ∨
    ∃ before old after, records = before ++ old :: after ∧ old.bid = bid ∧
      (∀ other ∈ before ++ after, other.bid ≠ bid) ∧
      brcFindRecordIn brc.content bid = .found (encode before).length old.list.length := by
  by_cases absent : ∀ other ∈ records, other.bid ≠ bid
  · exact .inl ⟨absent, brcFindRecordIn_missing isDangling absent holds.content_eq⟩
  · simp only [not_forall, not_not] at absent
    obtain ⟨old, member, rfl⟩ := absent
    obtain ⟨before, after, rfl⟩ := List.append_of_mem member
    rw [List.map_append, List.map_cons, List.nodup_middle, List.nodup_cons, ← List.map_append]
      at nodup
    have others : ∀ other ∈ before ++ after, other.bid ≠ old.bid := by
      intro other inRest equal
      apply nodup.1
      rw [← equal]
      exact List.mem_map_of_mem inRest
    refine .inr ⟨before, old, after, rfl, rfl, others, ?_⟩
    apply brcFindRecordIn_found _ holds.content_eq
    intro other inBefore
    exact others other (List.mem_append_left _ inBefore)

theorem brcInsertRecord_missing {bid : UInt32} {list : List BrcRec} {dangling : Nat}
    (search : brcFindRecordIn brc.content bid = .missing dangling) :
    brcInsertRecord session bid list brc =
      if trim session list = [] then
        { brc.takeOut (.missing dangling) with changed := false }
      else
        { (brc.takeOut (.missing dangling)).putInFront session bid (trim session list) with
          changed := false } := by
  simp only [brcInsertRecord, search, Bool.false_eq_true, if_false]

theorem brcInsertRecord_found {bid : UInt32} {list : List BrcRec} {offset num : Nat}
    (search : brcFindRecordIn brc.content bid = .found offset num) :
    brcInsertRecord session bid list brc =
      if offset = 0 ∧ trim session list ≠ [] ∧
          recordSize (trim session list).length = recordSize num then
        { brc with
          buf := brcPutRecord session brc.buf (recordSize (trim session list).length)
            bid (trim session list)
          changed := false }
      else if trim session list = [] then
        { brc.takeOut (.found offset num) with changed := false }
      else
        { (brc.takeOut (.found offset num)).putInFront session bid
            (trim session list) with changed := false } := by
  have large : 0 ≠ recordSize num := by
    unfold recordSize headerSize
    omega
  by_cases empty : trim session list = []
  · simp [brcInsertRecord, search, empty, large]
  · simp [brcInsertRecord, search, empty]

def Clean (records : List Record) (dangling : Bytes) (bid : UInt32) : Prop :=
  dangling = [] ∨ headerSize < dangling.length ∧ ∀ record ∈ records, record.bid ≠ bid

theorem packed_insertRecord {dangling : Bytes} (holds : Holds brc (encode records ++ dangling))
    (isDangling : Dangling dangling) (nodup : (records.map Record.bid).Nodup)
    (known : ∀ other ∈ records, From sources other) (small : brc.size ≤ brcMaxSize)
    (clean : Clean records dangling record.bid) (listed : record ∈ sources)
    (writes : Writes session brc record) :
    ∃ left, Packed sources (brcInsertRecord session record.bid record.list brc) left := by
  rcases holds.search isDangling nodup record.bid with
    ⟨absent, search⟩ | ⟨before, old, after, rfl, same, others, search⟩
  · -- the board has no record; what dangles is cut off
    have cutOff : Holds (brc.takeOut
        (.missing (if headerSize < dangling.length then dangling.length else 0)))
        (encode records) := by
      have size := holds.size
      rw [List.length_append] at size
      refine ⟨?_, (List.prefix_append _ _).trans holds.held⟩
      change brc.size - _ = _
      rcases clean with rfl | ⟨long, _absent⟩
      · rw [List.length_nil] at size ⊢
        rw [if_neg (Nat.not_lt_zero _)]
        omega
      · rw [if_pos long]
        omega
    have packed : Packed sources _ records :=
      ⟨cutOff, nodup, known, (Nat.sub_le _ _).trans small⟩
    rw [brcInsertRecord_missing search]
    apply packed.insert absent listed
    rcases writes with empty | current | found
    · exact .inl empty
    · exact .inr current
    · rw [search] at found
      cases found
  · -- the record of the board is taken out or written over
    have noBytes : dangling = [] := by
      rcases clean with none | ⟨_long, absent⟩
      · exact none
      · exact absurd same (absent old (List.mem_append_right _ List.mem_cons_self))
    subst noBytes
    rw [List.map_append, List.map_cons, List.nodup_middle, List.nodup_cons, ← List.map_append]
      at nodup
    rw [brcInsertRecord_found search]
    split
    · rename_i inPlace
      obtain ⟨atStart, some', size⟩ := inPlace
      obtain rfl := encode_length_eq_zero atStart
      rw [List.append_nil, List.nil_append] at holds
      have packed : Packed sources brc (old :: after) := by
        refine ⟨holds, ?_, known, small⟩
        rw [List.map_cons, List.nodup_cons]
        exact nodup
      exact packed.overwrite same listed some' size
    · rename_i elsewhere
      have out := holds.takeOut_found
      rw [List.append_nil] at out
      have packed : Packed sources (brc.takeOut (.found (encode before).length old.list.length))
          (before ++ after) := by
        refine ⟨out, nodup.2, ?_, (Nat.sub_le _ _).trans small⟩
        intro other inRest
        apply known
        rcases List.mem_append.mp inRest with inBefore | inAfter
        · exact List.mem_append_left _ inBefore
        · exact List.mem_append_right _ (List.mem_cons_of_mem _ inAfter)
      apply packed.insert others listed
      by_cases empty : trim session record.list = []
      · exact .inl empty
      · rcases writes with nothing | current | found
        · exact .inl nothing
        · exact .inr current
        · rw [search] at found
          simp only [Search.found.injEq] at found
          exact absurd ⟨found.1, empty, by rw [found.2]⟩ elsewhere

end Insert

/-! ### Runs -/

inductive Call where
  /-- `brc_update` with the changed list of the current board. -/
  | update (record : Record)
  | toggleRead (bid newtime : UInt32)
  | toggleAllRead (bid : UInt32) (isAllRead : Bool) (now : UInt32)

def truncated (bid ftime : UInt32) : Record where
  bid := bid
  list := [{ create := ftime, modified := ftime }]
  some' := Nat.le_refl 1
  fits := show 1 ≤ brcMaxNum by decide

def Call.record : Call → Record
  | .update record => record
  | .toggleRead bid newtime => truncated bid newtime
  | .toggleAllRead bid isAllRead now => truncated bid (if isAllRead then now else 1)

def step (session : Session) (brc : Brc) : Call → Brc
  | .update record => brcInsertRecord session record.bid record.list brc
  | .toggleRead bid newtime => brcToggleRead session bid newtime brc
  | .toggleAllRead bid isAllRead now => brcToggleAllRead session bid isAllRead now brc

theorem Packed.congr {sources records : List Record} {brc other : Brc}
    (packed : Packed sources brc records) (buf : other.buf = brc.buf)
    (size : other.size = brc.size) : Packed sources other records where
  holds := ⟨size.trans packed.holds.size, buf ▸ packed.holds.held⟩
  nodup := packed.nodup
  sources := packed.sources
  small := size ▸ packed.small

theorem brcTrunc_buffer (session : Session) (bid ftime : UInt32) (brc : Brc) :
    let inserted := brcInsertRecord session bid (truncated bid ftime).list brc
    (brcTrunc session bid ftime brc).buf = inserted.buf ∧
      (brcTrunc session bid ftime brc).size = inserted.size := by
  unfold brcTrunc
  dsimp only
  split
  · exact ⟨rfl, rfl⟩
  · exact ⟨rfl, rfl⟩

theorem step_buffer (session : Session) (brc : Brc) (call : Call) :
    let inserted := brcInsertRecord session call.record.bid call.record.list brc
    (step session brc call).buf = inserted.buf ∧ (step session brc call).size = inserted.size := by
  cases call with
  | update record => exact ⟨rfl, rfl⟩
  | toggleRead bid newtime => exact brcTrunc_buffer session bid newtime brc
  | toggleAllRead bid isAllRead now =>
      cases isAllRead with
      | false => exact brcTrunc_buffer session bid 1 brc
      | true => exact brcTrunc_buffer session bid now brc

def StrictlyDescending (list : List BrcRec) : Prop :=
  list.Pairwise fun newer older => older.create < newer.create

/-- Where every call finds what `brc_insert_record` relies on, the bytes in use are
records of different boards after every call, each of them with the beginning of a list
that was there or has been inserted. -/
theorem buffer_run (session : Session) {brc : Brc} {records : List Record} {dangling : Bytes}
    (holds : Holds brc (encode records ++ dangling)) (isDangling : Dangling dangling)
    (nodup : (records.map Record.bid).Nodup) (small : brc.size ≤ brcMaxSize)
    (call : Call) (calls : List Call) (clean : Clean records dangling call.record.bid)
    (writes : StepsMeet (step session) (fun brc call => Writes session brc call.record) brc
      (call :: calls)) :
    let final := run (step session) brc (call :: calls)
    ∃ left : List Record, final.content = encode left ∧ (left.map Record.bid).Nodup ∧
      final.size = (encode left).length ∧ final.size ≤ final.alloc ∧ final.size ≤ brcMaxSize ∧
      ((∀ inserted ∈ call :: calls, StrictlyDescending inserted.record.list) →
        ∀ record ∈ left, StrictlyDescending record.list ∨ From records record) := by
  intro final
  have known : ∀ sources, ∀ other ∈ records, From (records ++ sources) other :=
    fun sources other member =>
      ⟨other, List.mem_append_left _ member, rfl, List.prefix_rfl⟩
  have first : ∃ left, Packed (records ++ (call :: calls).map Call.record)
      (step session brc call) left := by
    obtain ⟨left, packed⟩ := packed_insertRecord holds isDangling nodup (known _) small clean
      (List.mem_append_right _ List.mem_cons_self) writes.1
    have same := step_buffer session brc call
    exact ⟨left, packed.congr same.1 same.2⟩
  have kept : ∀ brc, ∀ next ∈ calls,
      (∃ left, Packed (records ++ (call :: calls).map Call.record) brc left) →
      Writes session brc next.record →
      ∃ left, Packed (records ++ (call :: calls).map Call.record) (step session brc next) left := by
    intro brc next member
    rintro ⟨left, packed⟩ writes
    have listed : next.record ∈ records ++ (call :: calls).map Call.record :=
      List.mem_append_right _ (List.mem_cons_of_mem _ (List.mem_map_of_mem member))
    have whole : Holds brc (encode left ++ []) := by
      rw [List.append_nil]
      exact packed.holds
    obtain ⟨left, packed⟩ := packed_insertRecord whole dangling_nil packed.nodup packed.sources
      packed.small (.inl rfl) listed writes
    have same := step_buffer session brc next
    exact ⟨left, packed.congr same.1 same.2⟩
  obtain ⟨left, packed⟩ : ∃ left, Packed (records ++ (call :: calls).map Call.record) final left :=
    invariant_run_mem kept first writes.2
  refine ⟨left, packed.holds.content_eq, packed.nodup, packed.holds.size,
    packed.holds.size_le_alloc, packed.small, ?_⟩
  intro descending record member
  obtain ⟨source, listed, bid, shorter⟩ := packed.sources record member
  rcases List.mem_append.mp listed with old | inserted
  · exact .inr ⟨source, old, bid, shorter⟩
  · obtain ⟨origin, inCalls, rfl⟩ := List.mem_map.mp inserted
    exact .inl ((descending origin inCalls).sublist shorter.sublist)

theorem encode_inverse {left : List Record} {content : Bytes} (split : content = encode left)
    (nonempty : content ≠ []) :
    ∃ first rest, left = first :: rest ∧ first.bid = brcReadBid content ∧
      encode rest = content.drop (recordSize (brcReadNum content)) := by
  cases left with
  | nil => exact absurd split nonempty
  | cons first rest =>
      rw [encode_cons] at split
      refine ⟨first, rest, rfl, ?_, ?_⟩
      · rw [split]
        exact (brcReadBid_recordBytes _ _ _).symm
      · have num : brcReadNum content = first.list.length := by
          rw [split]
          exact brcReadNum_recordBytes _ first.fits
        rw [num, split]
        exact (List.drop_left' first.bytes_length).symm

def oneBoard : Brc where
  buf := (truncated 5 200).bytes ++ List.replicate 1010 0
  size := 14

theorem oneBoard_holds : Holds oneBoard (encode [truncated 5 200] ++ []) where
  size := by decide
  held := List.prefix_append _ _

/-- Marks after the expiry time. -/
theorem buffer_run_later :
    ∃ left : List Record,
      (run (step { expireTime := 100 }) oneBoard [.toggleRead 7 101]).content = encode left ∧
      (left.map Record.bid).Nodup := by
  obtain ⟨left, content, nodup, _rest⟩ := buffer_run { expireTime := 100 } oneBoard_holds
    dangling_nil (List.nodup_singleton _) (by decide) (.toggleRead 7 101) [] (.inl rfl)
    ⟨.inr (.inl ⟨⟨101, 101⟩, rfl, by decide⟩), trivial⟩
  exact ⟨left, content, nodup⟩

/-- A mark at the expiry time: room is made for a record that is not written, and the
record of the other board stands there twice. -/
theorem record_twice :
    Holds oneBoard (encode [truncated 5 200] ++ []) ∧
    ¬ ∃ left : List Record,
      (run (step { expireTime := 100 }) oneBoard [.toggleRead 7 100]).content = encode left ∧
      (left.map Record.bid).Nodup := by
  refine ⟨oneBoard_holds, ?_⟩
  rintro ⟨left, content, nodup⟩
  have twice : (run (step { expireTime := 100 }) oneBoard [.toggleRead 7 100]).content =
      (truncated 5 200).bytes ++ (truncated 5 200).bytes := by decide +kernel
  rw [twice] at content
  obtain ⟨first, rest, rfl, firstBid, after⟩ := encode_inverse content (by decide)
  obtain ⟨second, others, rfl, secondBid, _after⟩ := encode_inverse after.symm (by decide)
  have same : first.bid = second.bid := by
    rw [firstBid, secondBid]
    decide
  rw [List.map_cons, List.map_cons, same] at nodup
  exact (List.nodup_cons.mp nodup).1 List.mem_cons_self

end Pttbbs.Mbbsd.ReadMarks
