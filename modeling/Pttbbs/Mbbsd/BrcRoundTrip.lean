/-
Leaving a board and coming back.

The marks of the current board are kept in a list of their own, which ends in an
entry with the time 1 where the board had no record.  When the user leaves the
board the list is written into the buffer without the entries before the expiry
time.  An article before every entry of a list counts as read, so the articles
between the expiry time and the oldest entry that is kept may be unread before
and read afterwards.
-/

import Mathlib.Data.List.TakeWhile
import Pttbbs.Mbbsd.BrcBuffer

namespace Pttbbs.Mbbsd.ReadMarks

open Pttbbs.Lib

/-! ### Reading a record back -/

theorem readRec_bytes (entry : BrcRec) (rest : Bytes) : readRec (entry.bytes ++ rest) = entry := by
  have front : (entry.bytes ++ rest).take 4 = littleEndian 4 entry.create.toNat := by
    rw [BrcRec.bytes, List.append_assoc]
    exact List.take_left' (littleEndian_length 4 _)
  have back : ((entry.bytes ++ rest).drop 4).take 4 = littleEndian 4 entry.modified.toNat := by
    rw [BrcRec.bytes, List.append_assoc, List.drop_left' (littleEndian_length 4 _)]
    exact List.take_left' (littleEndian_length 4 _)
  rw [readRec, front, back, ofNat_littleEndian, ofNat_littleEndian]

theorem readRecs_entries (list : List BrcRec) (rest : Bytes) :
    readRecs list.length (list.flatMap BrcRec.bytes ++ rest) = list := by
  induction list with
  | nil => rfl
  | cons entry tail ih =>
      have length : entry.bytes.length = recSize := by
        rw [BrcRec.bytes, List.length_append, littleEndian_length, littleEndian_length]
        rfl
      rw [List.length_cons, List.flatMap_cons, List.append_assoc, readRecs, readRec_bytes,
        List.drop_left' length, ih]

def marks (brc : Brc) (bid : UInt32) : Option (List BrcRec) :=
  match brcFindRecordIn brc.content bid with
  | .found offset num => some (readRecs num (brc.content.drop (offset + headerSize)))
  | .missing _ => none

theorem brcFindRecord_eq (brc : Brc) (bid : UInt32) :
    brcFindRecord brc bid = (marks brc bid).getD [] := by
  unfold brcFindRecord marks
  cases brcFindRecordIn brc.content bid with
  | found offset num => rfl
  | missing dangling => rfl

theorem brcReadRecord_eq (bid : UInt32) (brc : Brc) :
    brcReadRecord bid brc = (marks brc bid).getD
      [{ create := 1, modified := (brc.list.head?.map BrcRec.modified).getD 0 }] := by
  unfold brcReadRecord marks
  cases brcFindRecordIn brc.content bid with
  | found offset num => rfl
  | missing dangling => rfl

section Marks

variable {brc : Brc} {records : List Record} {dangling : Bytes}

theorem drop_record (before : Bytes) (record : Record) (rest : Bytes) :
    (before ++ (record.bytes ++ rest)).drop (before.length + headerSize) =
      record.list.flatMap BrcRec.bytes ++ rest := by
  have length : (littleEndian 4 record.bid.toNat ++ littleEndian 2 record.list.length).length =
      headerSize := by
    rw [List.length_append, littleEndian_length, littleEndian_length]
    rfl
  rw [← List.drop_drop, List.drop_left, Record.bytes, recordBytes, List.append_assoc,
    List.drop_left' length]

theorem Holds.marks_missing (holds : Holds brc (encode records ++ dangling))
    (isDangling : Dangling dangling) {bid : UInt32}
    (absent : ∀ record ∈ records, record.bid ≠ bid) : marks brc bid = none := by
  rw [marks, brcFindRecordIn_missing isDangling absent holds.content_eq]

theorem Holds.marks_found {before after : List Record} {record : Record}
    (holds : Holds brc (encode (before ++ record :: after) ++ dangling))
    (absent : ∀ other ∈ before, other.bid ≠ record.bid) :
    marks brc record.bid = some record.list := by
  rw [marks, brcFindRecordIn_found absent holds.content_eq]
  simp only [holds.content_eq]
  rw [encode_append, encode_cons, List.append_assoc, List.append_assoc, drop_record,
    readRecs_entries]

theorem Holds.marks_front {record : Record} {rest : Bytes}
    (holds : Holds brc (record.bytes ++ rest)) : marks brc record.bid = some record.list := by
  have search : brcFindRecordIn brc.content record.bid = .found 0 record.list.length := by
    have length := record.bytes_pos
    rw [brcFindRecordIn, holds.content_eq, List.length_append]
    obtain ⟨fuel, enough⟩ := Nat.exists_eq_succ_of_ne_zero
      (show record.bytes.length + rest.length ≠ 0 by omega)
    rw [enough, findRecordFrom_cons, if_pos rfl]
  rw [marks, search]
  simp only [holds.content_eq, Nat.zero_add]
  have dropped := drop_record [] record rest
  rw [List.length_nil, Nat.zero_add, List.nil_append] at dropped
  rw [dropped, readRecs_entries]

end Marks

/-! ### Writing without compaction -/

section Write

variable {session : Session} {brc : Brc} {record : Record}

theorem Holds.putInFront_roomy {content : Bytes} (holds : Holds brc content)
    (current : Current session record.list)
    (roomy : brc.size + recordSize record.list.length ≤ brcMaxSize) :
    Holds (brc.putInFront session record.bid record.list) (record.bytes ++ content) := by
  have fine : ¬ brcMaxSize < brc.size + recordSize record.list.length := Nat.not_lt.mpr roomy
  obtain ⟨enlarged, room⟩ := @Holds.enlarged session brc _ holds (recordSize record.list.length)
  rw [Brc.putInFront]
  simp only [if_neg fine, if_neg (not_and.mpr fun full _more => fine full), if_pos roomy]
  apply enlarged.written current
  change _ + brc.size ≤ (enlargeFor _ _ _ _).length
  omega

/-- The buffer has room for the list once the old record of the board is out. -/
def Roomy (session : Session) (brc : Brc) (bid : UInt32) (list : List BrcRec) : Prop :=
  (brc.takeOut (brcFindRecordIn brc.content bid)).size +
    recordSize (trim session list).length ≤ brcMaxSize

instance (session : Session) (brc : Brc) (bid : UInt32) (list : List BrcRec) :
    Decidable (Roomy session brc bid list) :=
  inferInstanceAs (Decidable (_ ≤ _))

theorem marks_insertRecord {records : List Record} {dangling : Bytes}
    (holds : Holds brc (encode records ++ dangling)) (isDangling : Dangling dangling)
    (nodup : (records.map Record.bid).Nodup) (some' : trim session record.list ≠ [])
    (current : Current session (trim session record.list))
    (roomy : Roomy session brc record.bid record.list) :
    marks (brcInsertRecord session record.bid record.list brc) record.bid =
      some (trim session record.list) := by
  have front : ∃ rest, Holds (brcInsertRecord session record.bid record.list brc)
      ((record.trimmed session some').bytes ++ rest) := by
    have inFront : ∀ {out : Brc} {content : Bytes}, Holds out content →
        out.size + recordSize (trim session record.list).length ≤ brcMaxSize →
        Holds { out.putInFront session record.bid (trim session record.list) with
          changed := false } ((record.trimmed session some').bytes ++ content) := by
      intro out content held roomy
      have put := @Holds.putInFront_roomy session out (record.trimmed session some') _ held current
        roomy
      exact ⟨put.1, put.2⟩
    rw [Roomy] at roomy
    rcases holds.search isDangling nodup record.bid with
      ⟨_absent, search⟩ | ⟨before, old, after, rfl, same, _others, search⟩
    · rw [search] at roomy
      rw [brcInsertRecord_missing search, if_neg some']
      have out : Holds (brc.takeOut
          (.missing (if headerSize < dangling.length then dangling.length else 0)))
          ((encode records ++ dangling).take
            (brc.size - if headerSize < dangling.length then dangling.length else 0)) := by
        refine ⟨?_, (List.take_prefix _ _).trans holds.held⟩
        change brc.size - _ = _
        rw [List.length_take, ← holds.size]
        omega
      exact ⟨_, inFront out roomy⟩
    · rw [search] at roomy
      rw [brcInsertRecord_found search]
      split
      · rename_i inPlace
        -- the record at the beginning is written over
        obtain ⟨atStart, _some, size⟩ := inPlace
        obtain rfl := encode_length_eq_zero atStart
        rw [List.nil_append, encode_cons, List.append_assoc] at holds
        exact ⟨_, @Holds.overwritten session brc (record.trimmed session some') _ _ holds current
          size⟩
      · exact ⟨_, inFront holds.takeOut_found roomy⟩
  obtain ⟨rest, held⟩ := front
  exact held.marks_front

end Write

theorem trim_current {session : Session} {list : List BrcRec} (current : Current session list) :
    Current session (trim session list) := by
  obtain ⟨first, rest, rfl, later⟩ := current.exists_cons
  have keeps : (decide (first.create < session.expireTime)) = false :=
    decide_eq_false (UInt32.lt_asymm later)
  rw [trim, List.reverse_cons, List.dropWhile_append]
  split
  · rw [List.dropWhile_cons_of_neg (by rw [keeps]; exact Bool.false_ne_true)]
    exact ⟨first, rfl, later⟩
  · rw [List.reverse_append]
    exact ⟨first, rfl, later⟩

def OutsideBuffer {β : Type} (field : Brc → β) : Prop :=
  ∀ brc buf size changed, field { brc with buf, size, changed } = field brc

section Fields

variable (session : Session) (bid : UInt32) (list : List BrcRec) (brc : Brc) {β : Type}
  {field : Brc → β} (outside : OutsideBuffer field)

include outside

theorem brcCompact_field (needed fuel : Nat) (brc : Brc) :
    field (brcCompact needed bid fuel brc) = field brc := by
  induction fuel generalizing brc with
  | zero => rfl
  | succ fuel ih =>
      rw [brcCompact]
      split
      · split
        · rfl
        · exact (ih _).trans (outside brc _ _ brc.changed)
      · rfl

theorem brcCompactTailDrop_field (needed fuel : Nat) (brc : Brc) :
    field (brcCompactTailDrop needed fuel brc) = field brc := by
  induction fuel generalizing brc with
  | zero => rfl
  | succ fuel ih =>
      rw [brcCompactTailDrop]
      split
      · split
        · rfl
        · exact (ih _).trans (outside brc brc.buf _ brc.changed)
      · rfl

theorem putInFront_field : field (brc.putInFront session bid list) = field brc := by
  rw [Brc.putInFront]
  simp only [apply_ite field, outside _ _ _ _, brcCompact_field _ outside,
    brcCompactTailDrop_field outside, ite_self]

theorem takeOut_field (search : Search) : field (brc.takeOut search) = field brc := by
  cases search with
  | found offset num => exact outside brc _ _ brc.changed
  | missing dangling => exact outside brc brc.buf _ brc.changed

theorem brcInsertRecord_field : field (brcInsertRecord session bid list brc) = field brc := by
  unfold brcInsertRecord
  simp only [apply_ite field, outside _ _ _ _, putInFront_field _ _ _ _ outside,
    takeOut_field _ outside, ite_self]

omit outside

theorem brcInsertRecord_changed : (brcInsertRecord session bid list brc).changed = false := by
  unfold brcInsertRecord
  simp only [apply_ite Brc.changed, ite_self]

theorem brcInsertRecord_currbid :
    (brcInsertRecord session bid list brc).currbid = brc.currbid :=
  brcInsertRecord_field session bid list brc fun _ _ _ _ => rfl

theorem brcInsertRecord_list : (brcInsertRecord session bid list brc).list = brc.list :=
  brcInsertRecord_field session bid list brc fun _ _ _ _ => rfl

end Fields

/-! ### Looking an article up -/

section Unread

variable {ftime modified : UInt32}

theorem unreadIn_append_of_reached {kept : List BrcRec} (dropped : List BrcRec)
    (reached : ∃ entry ∈ kept, entry.create ≤ ftime) :
    unreadIn ftime modified (kept ++ dropped) = unreadIn ftime modified kept := by
  induction kept with
  | nil =>
      obtain ⟨entry, member, _older⟩ := reached
      cases member
  | cons first rest ih =>
      rw [List.cons_append, unreadIn, unreadIn]
      by_cases older : first.create < ftime
      · rw [if_pos older, if_pos older]
      · by_cases same : ftime = first.create
        · rw [if_neg older, if_neg older, if_pos same, if_pos same]
        · rw [if_neg older, if_neg older, if_neg same, if_neg same]
          apply ih
          obtain ⟨entry, member, before⟩ := reached
          rcases List.mem_cons.mp member with rfl | inRest
          · exact absurd (UInt32.le_antisymm (UInt32.not_lt.mp older) before) same
          · exact ⟨entry, inRest, before⟩

theorem unreadIn_append_of_newer {kept : List BrcRec} (dropped : List BrcRec)
    (newer : ∀ entry ∈ kept, ftime < entry.create) :
    unreadIn ftime modified (kept ++ dropped) = unreadIn ftime modified dropped := by
  induction kept with
  | nil => rfl
  | cons first rest ih =>
      have later := newer first List.mem_cons_self
      rw [List.cons_append, unreadIn, if_neg (UInt32.lt_asymm later),
        if_neg (UInt32.ne_of_lt later)]
      exact ih fun entry member => newer entry (List.mem_cons_of_mem first member)

theorem unreadIn_of_older {entry : BrcRec} (rest : List BrcRec) (older : entry.create < ftime) :
    unreadIn ftime modified (entry :: rest) = 1 := by
  rw [unreadIn, if_pos older]

theorem unreadIn_at_ne_one (entry : BrcRec) (rest : List BrcRec) :
    unreadIn entry.create modified (entry :: rest) ≠ 1 := by
  rw [unreadIn, if_neg (UInt32.lt_irrefl _), if_pos rfl]
  split
  · exact Nat.zero_ne_one
  · split
    · exact Nat.zero_ne_one
    · split
      · exact Nat.succ_ne_self 1
      · exact Nat.zero_ne_one

end Unread

theorem trim_append (session : Session) (list : List BrcRec) :
    ∃ dropped, list = trim session list ++ dropped ∧
      ∀ entry ∈ dropped, entry.create < session.expireTime := by
  refine ⟨(list.reverse.takeWhile fun entry => entry.create < session.expireTime).reverse, ?_, ?_⟩
  · rw [trim, ← List.reverse_append, List.takeWhile_append_dropWhile, List.reverse_reverse]
  · intro entry member
    have old := List.mem_takeWhile_imp (List.mem_reverse.mp member)
    exact of_decide_eq_true old

/-- An article right after the expiry time is before every entry that is kept. -/
def GapBefore (session : Session) (kept : List BrcRec) : Prop :=
  ∀ entry ∈ kept, session.expireTime.toNat + 1 < entry.create.toNat

instance (session : Session) (kept : List BrcRec) : Decidable (GapBefore session kept) :=
  List.decidableBAll _ kept

theorem unreadIn_kept_iff (session : Session) {kept dropped : List BrcRec} (nonempty : kept ≠ [])
    (old : ∀ entry ∈ dropped, entry.create < session.expireTime) :
    (∀ ftime modified : UInt32, session.expireTime < ftime →
      unreadIn ftime modified kept = unreadIn ftime modified (kept ++ dropped)) ↔
    (dropped = [] ∨ ¬ GapBefore session kept) := by
  constructor
  · intro same
    by_cases gap : GapBefore session kept
    · left
      cases dropped with
      | nil => rfl
      | cons entry rest =>
          -- the article right after the expiry time
          obtain ⟨first, more, entries⟩ := List.exists_cons_of_ne_nil nonempty
          have bound := gap first (by rw [entries]; exact List.mem_cons_self)
          have small := first.create.toNat_lt
          obtain ⟨ftime, isNext⟩ : ∃ ftime : UInt32,
              ftime.toNat = session.expireTime.toNat + 1 :=
            ⟨UInt32.ofNat (session.expireTime.toNat + 1), UInt32.toNat_ofNat_of_lt (by unfold UInt32.size; omega)⟩
          have later : session.expireTime < ftime := by
            rw [UInt32.lt_iff_toNat_lt, isNext]
            exact Nat.lt_succ_self _
          have newer : ∀ entry ∈ kept, ftime < entry.create := by
            intro entry member
            rw [UInt32.lt_iff_toNat_lt, isNext]
            exact gap entry member
          have unread : unreadIn ftime 0 (kept ++ entry :: rest) = 1 := by
            rw [unreadIn_append_of_newer _ newer]
            exact unreadIn_of_older rest (UInt32.lt_trans (old entry List.mem_cons_self) later)
          have read : unreadIn ftime 0 kept = 0 := by
            have nothing := @unreadIn_append_of_newer ftime 0 _ [] newer
            rwa [List.append_nil] at nothing
          have answer := same ftime 0 later
          rw [unread, read] at answer
          cases answer
    · exact .inr gap
  · intro condition ftime modified later
    rcases condition with rfl | noGap
    · rw [List.append_nil]
    · rw [GapBefore] at noGap
      push Not at noGap
      obtain ⟨entry, member, bound⟩ := noGap
      rw [UInt32.lt_iff_toNat_lt] at later
      have reached : ∃ entry ∈ kept, entry.create ≤ ftime :=
        ⟨entry, member, UInt32.le_iff_toNat_le.mpr (by omega)⟩
      exact (unreadIn_append_of_reached dropped reached).symm

theorem unreadIn_trim_iff (session : Session) {list : List BrcRec}
    (nonempty : trim session list ≠ []) :
    (∀ ftime modified : UInt32, session.expireTime < ftime →
      unreadIn ftime modified (trim session list) = unreadIn ftime modified list) ↔
    (trim session list = list ∨ ¬ GapBefore session (trim session list)) := by
  obtain ⟨dropped, split, old⟩ := trim_append session list
  have whole : trim session list = list ↔ dropped = [] := by
    generalize trim session list = kept at split
    rw [split, List.self_eq_append_right]
  have answers := unreadIn_kept_iff session nonempty old
  rw [← split] at answers
  rw [whole]
  exact answers

/-! ### Marking articles -/

theorem addTo_current {session : Session} {entry : BrcRec} (later : session.expireTime < entry.create)
    {list new : List BrcRec} (added : addTo entry list = some new) : Current session new := by
  cases list with
  | nil => cases added
  | cons first rest =>
      rw [addTo] at added
      by_cases same : entry.create = first.create
      · rw [if_pos same] at added
        have kept : session.expireTime < first.create := same ▸ later
        split at added
        · cases added
        · obtain ⟨_newer, isNew⟩ := Option.ite_none_right_eq_some.mp added
          cases isNew
          exact ⟨_, rfl, kept⟩
      · rw [if_neg same] at added
        by_cases newer : first.create < entry.create
        · rw [if_pos newer] at added
          cases added
          exact ⟨entry, rfl, later⟩
        · rw [if_neg newer] at added
          obtain ⟨tail, _tailAdded, rfl⟩ := Option.map_eq_some_iff.mp added
          exact ⟨first, rfl, UInt32.lt_of_lt_of_le later (UInt32.not_lt.mp newer)⟩

theorem brcAddlist_cases (session : Session) (entry : BrcRec) (brc : Brc) :
    brcAddlist session entry brc = brc ∨
    session.userlevel = true ∧ ∃ list : List BrcRec, list.length ≤ brcMaxNum ∧
      Current session list ∧
      brcAddlist session entry brc = { brc with list := list, changed := true } := by
  unfold brcAddlist
  split
  · exact .inl rfl
  · rename_i level
    have userlevel : session.userlevel = true := by simpa using level
    split
    · exact .inl rfl
    · rename_i old
      have later : session.expireTime < entry.create := UInt32.not_le.mp old
      have taken : ∀ {list : List BrcRec}, Current session list →
          (list.take brcMaxNum).length ≤ brcMaxNum ∧ Current session (list.take brcMaxNum) := by
        intro list current
        obtain ⟨first, rest, rfl, later⟩ := current.exists_cons
        exact ⟨List.length_take_le _ _, first, rfl, later⟩
      split
      · refine .inr ⟨userlevel, [entry], show 1 ≤ brcMaxNum by decide, ⟨entry, rfl, later⟩, rfl⟩
      · split
        · exact .inl rfl
        · split
          · exact .inl rfl
          · rename_i _list added
            have fine := taken (addTo_current later added)
            exact .inr ⟨userlevel, _, fine.1, fine.2, rfl⟩
      · split
        · exact .inl rfl
        · rename_i _list added
          have fine := taken (addTo_current later added)
          exact .inr ⟨userlevel, _, fine.1, fine.2, rfl⟩

structure Marked (session : Session) (opened brc : Brc) : Prop where
  buf : brc.buf = opened.buf
  size : brc.size = opened.size
  currbid : brc.currbid = opened.currbid
  fits : brc.list.length ≤ brcMaxNum
  idle : brc.changed = false → brc.list = opened.list
  written : brc.changed = true → session.userlevel = true ∧ Current session brc.list

theorem Marked.addlist {session : Session} {opened brc : Brc} (marked : Marked session opened brc)
    (entry : BrcRec) : Marked session opened (brcAddlist session entry brc) := by
  rcases brcAddlist_cases session entry brc with same | ⟨userlevel, list, fits, current, changed⟩
  · rw [same]
    exact marked
  · rw [changed]
    exact ⟨marked.buf, marked.size, marked.currbid, fits, nofun, fun _changed =>
      ⟨userlevel, current⟩⟩

def addlists (session : Session) (brc : Brc) (entries : List BrcRec) : Brc :=
  run (fun brc entry => brcAddlist session entry brc) brc entries

/-! ### Leaving and coming back -/

theorem brcUpdate_idle (session : Session) {brc : Brc} (idle : brc.changed = false) :
    brcUpdate session brc = brc := by
  rw [brcUpdate, if_neg]
  rintro ⟨_currbid, changed, _rest⟩
  rw [idle] at changed
  cases changed

theorem brcUnreadTime_current {session : Session} {brc : Brc} {bid : UInt32}
    (board : brc.currbid = bid) (nonzero : bid ≠ 0) (some' : brc.list ≠ [])
    {ftime modified : UInt32} (later : session.expireTime < ftime) :
    brcUnreadTime session brc bid ftime modified = unreadIn ftime modified brc.list := by
  rw [brcUnreadTime, if_neg (UInt32.not_le.mpr later)]
  simp only [board, ne_eq, nonzero, not_false_eq_true, true_and, if_true, some', if_false]

theorem brcUnreadTime_other {session : Session} {brc : Brc} {bid : UInt32}
    (board : brc.currbid ≠ bid) {ftime modified : UInt32} (later : session.expireTime < ftime) :
    brcUnreadTime session brc bid ftime modified =
      if (marks brc bid).getD [] = [] then 1
      else unreadIn ftime modified ((marks brc bid).getD []) := by
  rw [brcUnreadTime, if_neg (UInt32.not_le.mpr later)]
  simp only [show ¬ (brc.currbid ≠ 0 ∧ bid = brc.currbid) from fun both => board both.2.symm,
    if_false, brcFindRecord_eq]

/-- The answers are the same before the marks are written, from another board, and
after coming back. -/
def SameAnswers (session : Session) (brc : Brc) (bid other : UInt32) : Prop :=
  ∀ ftime modified : UInt32, session.expireTime < ftime →
    let away := brcInitialBoard session other (brcUpdate session brc)
    brcUnreadTime session away bid ftime modified =
      brcUnreadTime session brc bid ftime modified ∧
    brcUnreadTime session (brcInitialBoard session bid away) bid ftime modified =
      brcUnreadTime session brc bid ftime modified

section RoundTrip

variable {session : Session} {brc : Brc} {bid other : UInt32}

theorem brcInitialBoard_idle (leaves : brc.currbid ≠ bid) (idle : brc.changed = false) :
    brcInitialBoard session bid brc =
      { brc with currbid := bid, list := brcReadRecord bid brc } := by
  rw [brcInitialBoard, if_neg leaves, brcUpdate_idle session idle]

theorem sameAnswers_of_some {list : List BrcRec} (board : brc.currbid = bid) (nonzero : bid ≠ 0)
    (some' : brc.list ≠ []) (leaves : other ≠ bid)
    (idle : (brcUpdate session brc).changed = false)
    (keeps : (brcUpdate session brc).currbid = bid)
    (found : marks (brcUpdate session brc) bid = some list) (nonempty : list ≠ []) :
    SameAnswers session brc bid other ↔
      ∀ ftime modified : UInt32, session.expireTime < ftime →
        unreadIn ftime modified list = unreadIn ftime modified brc.list := by
  refine forall_congr' fun ftime => forall_congr' fun modified => imp_congr_right fun later => ?_
  dsimp only
  rw [brcUnreadTime_current board nonzero some' later]
  generalize brcUpdate session brc = updated at idle keeps found ⊢
  have away := @brcInitialBoard_idle session updated other (keeps ▸ leaves.symm) idle
  rw [away]
  have there : marks { updated with currbid := other, list := brcReadRecord other updated } bid =
      some list := found
  have back := @brcInitialBoard_idle session
    { updated with currbid := other, list := brcReadRecord other updated } bid leaves idle
  rw [back, brcUnreadTime_other leaves later, there, brcReadRecord_eq bid, there]
  rw [brcUnreadTime_current rfl nonzero nonempty later]
  simp only [Option.getD_some, if_neg nonempty, and_self]

theorem sameAnswers_of_none {stamp : UInt32} (board : brc.currbid = bid) (nonzero : bid ≠ 0)
    (list : brc.list = [⟨1, stamp⟩]) (leaves : other ≠ bid) (idle : brc.changed = false)
    (missing : marks brc bid = none) :
    SameAnswers session brc bid other ↔ 1 ≤ session.expireTime := by
  have some' : brc.list ≠ [] := by
    rw [list]
    exact List.cons_ne_nil _ _
  have away := @brcInitialBoard_idle session brc other (board ▸ leaves.symm) idle
  have there : marks { brc with currbid := other, list := brcReadRecord other brc } bid = none :=
    missing
  have back := @brcInitialBoard_idle session
    { brc with currbid := other, list := brcReadRecord other brc } bid leaves idle
  rw [SameAnswers, brcUpdate_idle session idle, away]
  dsimp only
  rw [back, brcReadRecord_eq bid, there]
  constructor
  · intro same
    by_contra early
    -- the article with the time of the entry that stands for nothing
    have zero : session.expireTime = 0 := by
      rw [UInt32.not_le, UInt32.lt_iff_toNat_lt] at early
      exact UInt32.toNat_inj.mp (Nat.lt_one_iff.mp early)
    have later : session.expireTime < 1 := by
      rw [zero]
      decide
    have first := (same 1 0 later).1
    rw [brcUnreadTime_other leaves later, there, brcUnreadTime_current board nonzero some' later,
      list] at first
    exact unreadIn_at_ne_one ⟨1, stamp⟩ [] first.symm
  · intro late ftime modified later
    have old : 1 < ftime := UInt32.lt_of_le_of_lt late later
    rw [brcUnreadTime_other leaves later, there, brcUnreadTime_current board nonzero some' later,
      list, unreadIn_of_older [] old, Option.getD_none, brcUnreadTime_current rfl nonzero
        (List.cons_ne_nil _ _) later]
    exact ⟨rfl, unreadIn_of_older [] old⟩

theorem Holds.readRecord_cases {records : List Record} {dangling : Bytes}
    (holds : Holds brc (encode records ++ dangling)) (isDangling : Dangling dangling)
    (nodup : (records.map Record.bid).Nodup) (bid : UInt32) :
    (∃ record ∈ records, record.bid = bid ∧ marks brc bid = some record.list ∧
      brcReadRecord bid brc = record.list) ∨
    (∀ record ∈ records, record.bid ≠ bid) ∧ marks brc bid = none ∧
      ∃ stamp, brcReadRecord bid brc = [⟨1, stamp⟩] := by
  rw [brcReadRecord_eq]
  rcases holds.search isDangling nodup bid with
    ⟨absent, _search⟩ | ⟨before, old, after, rfl, rfl, others, _search⟩
  · have missing := holds.marks_missing isDangling absent
    rw [missing]
    exact .inr ⟨absent, rfl, _, rfl⟩
  · have found := holds.marks_found fun other member =>
      others other (List.mem_append_left _ member)
    rw [found]
    exact .inl ⟨old, List.mem_append_right _ List.mem_cons_self, rfl, rfl, rfl⟩

theorem sameAnswers_changed_iff {records : List Record} {dangling : Bytes}
    (holds : Holds brc (encode records ++ dangling)) (isDangling : Dangling dangling)
    (nodup : (records.map Record.bid).Nodup) (board : brc.currbid = bid) (nonzero : bid ≠ 0)
    (leaves : other ≠ bid) (changed : brc.changed = true) (userlevel : session.userlevel = true)
    (current : Current session brc.list) (fits : brc.list.length ≤ brcMaxNum)
    (roomy : Roomy session brc bid brc.list) :
    SameAnswers session brc bid other ↔
      (trim session brc.list = brc.list ∨ ¬ GapBefore session (trim session brc.list)) := by
  have nonempty : ∀ {list : List BrcRec}, Current session list → list ≠ [] := by
    intro list current
    obtain ⟨first, rest, rfl, _later⟩ := current.exists_cons
    exact List.cons_ne_nil first rest
  have some' := nonempty current
  have trimmed := nonempty (trim_current current)
  have writes : brcUpdate session brc = brcInsertRecord session bid brc.list brc := by
    rw [brcUpdate, board]
    exact if_pos ⟨nonzero, changed, userlevel, some'⟩
  have found : marks (brcUpdate session brc) bid = some (trim session brc.list) := by
    rw [writes]
    exact @marks_insertRecord session brc ⟨bid, brc.list, List.length_pos_iff.mpr some', fits⟩
      _ _ holds isDangling nodup trimmed (trim_current current) roomy
  have idle : (brcUpdate session brc).changed = false := by
    rw [writes]
    exact brcInsertRecord_changed _ _ _ _
  have keeps : (brcUpdate session brc).currbid = bid := by
    rw [writes, brcInsertRecord_currbid, board]
  rw [sameAnswers_of_some board nonzero some' leaves idle keeps found trimmed]
  exact unreadIn_trim_iff session trimmed

/-- The marks of a board survive leaving it and coming back exactly when they were not
changed and the board had a record or the expiry time is not 0, or they were changed and
trimming them drops nothing or leaves no gap after the expiry time. -/
theorem sameAnswers_addlists_iff {start : Brc} {records : List Record} {dangling : Bytes}
    (holds : Holds (brcUpdate session start) (encode records ++ dangling))
    (isDangling : Dangling dangling) (nodup : (records.map Record.bid).Nodup)
    (idle : (brcUpdate session start).changed = false) (arrives : start.currbid ≠ bid)
    (nonzero : bid ≠ 0) (leaves : other ≠ bid) (entries : List BrcRec)
    (roomy : Roomy session (addlists session (brcInitialBoard session bid start) entries) bid
      (addlists session (brcInitialBoard session bid start) entries).list) :
    let brc := addlists session (brcInitialBoard session bid start) entries
    SameAnswers session brc bid other ↔
      if brc.changed then
        trim session brc.list = brc.list ∨ ¬ GapBefore session (trim session brc.list)
      else (∃ record ∈ records, record.bid = bid) ∨ 1 ≤ session.expireTime := by
  have opens : brcInitialBoard session bid start =
      { brcUpdate session start with
        currbid := bid, list := brcReadRecord bid (brcUpdate session start) } := by
    rw [brcInitialBoard, if_neg arrives]
  have read := holds.readRecord_cases isDangling nodup bid
  have length : 1 ≤ (brcReadRecord bid (brcUpdate session start)).length ∧
      (brcReadRecord bid (brcUpdate session start)).length ≤ brcMaxNum := by
    rcases read with ⟨record, _member, _bid, _found, list⟩ | ⟨_absent, _missing, stamp, list⟩
    · rw [list]
      exact ⟨record.some', record.fits⟩
    · rw [list]
      exact ⟨Nat.le_refl 1, show 1 ≤ brcMaxNum by decide⟩
  have marked : Marked session (brcInitialBoard session bid start)
      (addlists session (brcInitialBoard session bid start) entries) := by
    apply invariant_run_of_step (fun brc entry marked => marked.addlist entry)
    rw [opens]
    refine ⟨rfl, rfl, rfl, length.2, fun _idle => rfl, fun changed => ?_⟩
    exact absurd (idle.symm.trans changed) Bool.false_ne_true
  generalize addlists session (brcInitialBoard session bid start) entries = brc at marked roomy ⊢
  rw [opens] at marked
  dsimp only
  have board : brc.currbid = bid := marked.currbid
  have holdsNow : Holds brc (encode records ++ dangling) :=
    ⟨marked.size.trans holds.size, marked.buf ▸ holds.held⟩
  have marksNow : marks brc bid = marks (brcUpdate session start) bid := by
    unfold marks Brc.content
    rw [marked.buf, marked.size]
  cases changed : brc.changed with
  | true =>
      obtain ⟨userlevel, current⟩ := marked.written changed
      rw [if_pos rfl]
      exact sameAnswers_changed_iff holdsNow isDangling nodup board nonzero leaves changed
        userlevel current marked.fits roomy
  | false =>
      rw [if_neg Bool.false_ne_true]
      have list : brc.list = brcReadRecord bid (brcUpdate session start) := marked.idle changed
      rcases read with ⟨record, member, same, found, isList⟩ | ⟨absent, missing, stamp, isList⟩
      · have some' : brc.list ≠ [] := by
          rw [list]
          exact List.length_pos_iff.mp length.1
        have idleNow := brcUpdate_idle session changed
        rw [sameAnswers_of_some board nonzero some' leaves (by rw [idleNow, changed])
          (by rw [idleNow, board]) (by rw [idleNow, marksNow, found, ← isList, ← list]) some']
        exact ⟨fun _same => .inl ⟨record, member, same⟩, fun _either _f _m _later => rfl⟩
      · rw [sameAnswers_of_none board nonzero (list.trans isList) leaves changed
          (marksNow.trans missing)]
        constructor
        · exact .inr
        · rintro (⟨record, member, same⟩ | late)
          · exact absurd same (absent record member)
          · exact late

end RoundTrip

/-- An article right after the expiry time has been marked. -/
theorem sameAnswers_without_gap :
    SameAnswers { expireTime := 100 }
      (addlists { expireTime := 100 } (brcInitialBoard { expireTime := 100 } 3 {})
        [⟨200, 0⟩, ⟨101, 0⟩]) 3 4 :=
  (sameAnswers_addlists_iff (show Holds _ (encode [] ++ []) from ⟨rfl, List.nil_prefix⟩)
    dangling_nil List.nodup_nil rfl (by decide) (by decide) (by decide) [⟨200, 0⟩, ⟨101, 0⟩]
    (by decide)).mpr (by decide)

/-- One article of a new board is read.  The one before it is unread, and counts as read
once the marks have been written. -/
theorem unread_becomes_read :
    let session : Session := { expireTime := 100 }
    let brc := addlists session (brcInitialBoard session 3 {}) [⟨200, 0⟩]
    brcUnreadTime session brc 3 150 0 = 1 ∧
    brcUnreadTime session (brcInitialBoard session 4 (brcUpdate session brc)) 3 150 0 = 0 ∧
    ¬ SameAnswers session brc 3 4 := by
  intro session brc
  have before : brcUnreadTime session brc 3 150 0 = 1 := by decide
  have after : brcUnreadTime session (brcInitialBoard session 4 (brcUpdate session brc)) 3 150 0 =
      0 := by decide
  refine ⟨before, after, fun same => ?_⟩
  have first := (same 150 0 (by decide)).1
  rw [before, after] at first
  cases first

end Pttbbs.Mbbsd.ReadMarks
