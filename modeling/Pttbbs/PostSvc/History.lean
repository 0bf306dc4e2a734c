/-
The revisions of a post or comment as a numbered family of keys.

The next revision is found by scanning: it is never zero, and while the stored
revisions are 1 up to some count it is the one after.
-/

import Pttbbs.PostSvc.Frame

namespace Pttbbs.PostSvc

open Pttbbs.Lib

namespace Engine

private theorem add_one_ne_zero_of_head {bytes : Bytes} (wide : bytes.length = 4)
    (low : ∀ byte ∈ bytes.head?, byte < 0xff) : uint32 bytes + 1 ≠ 0 := by
  intro zero
  rw [← putUint32_uint32 wide, putUint32_head_lt_iff] at low
  have wrapped := congrArg UInt32.toNat zero
  rw [UInt32.toNat_add] at wrapped
  simp at wrapped
  omega

theorem revisionAfter_ne_zero {scan : List (Bytes × Bytes)} {decode : Bytes → Option UInt32}
    (sound : ∀ entry ∈ scan, ∀ revision ∈ decode entry.1, revision + 1 ≠ 0) :
    revisionAfter scan decode ≠ 0 := by
  unfold revisionAfter
  cases atEnd : scan.getLast? with
  | none => simp
  | some entry =>
      cases decoded : decode entry.1 with
      | none => simp [decoded]
      | some revision =>
          simpa [decoded] using sound entry (List.mem_of_getLast? atEnd) revision decoded

private theorem revisionAfter_scan_ne_zero (db : Pebble) {stem : Bytes}
    {decode : Bytes → Option UInt32}
    (reads : ∀ key revision, decode key = some revision →
      key.length = stem.length + 4 ∧ revision = uint32 (key.drop stem.length)) :
    revisionAfter (scanPrefix db stem) decode ≠ 0 := by
  apply revisionAfter_ne_zero
  intro entry member revision decoded
  obtain ⟨_stored, suffix, keyEq, low⟩ := (mem_scanPrefix _ _ _).mp member
  obtain ⟨wide, isTail⟩ := reads entry.1 revision decoded
  rw [keyEq, List.length_append] at wide
  rw [isTail, keyEq, List.drop_left]
  exact add_one_ne_zero_of_head (by omega) low

theorem nextPostRevision_ne_zero (engine : Engine) (postID : UInt64) :
    engine.nextPostRevision postID ≠ 0 := by
  apply revisionAfter_scan_ne_zero
  intro key revision decoded
  obtain ⟨parts, readable, rfl⟩ := Option.map_eq_some_iff.mp decoded
  have stemLength : (encodePostHistoryPrefix postID).length = 10 := by
    simp [encodePostHistoryPrefix]
  unfold decodePostHistoryKey at readable
  split at readable
  · rename_i shape
    cases readable
    rw [stemLength]
    exact ⟨shape.1, rfl⟩
  · cases readable

theorem nextCommentRevision_ne_zero (engine : Engine) (postID : UInt64) (sequence : UInt32) :
    engine.nextCommentRevision postID sequence ≠ 0 := by
  apply revisionAfter_scan_ne_zero
  intro key revision decoded
  obtain ⟨parts, readable, rfl⟩ := Option.map_eq_some_iff.mp decoded
  have stemLength : (encodeCommentHistoryPrefix postID sequence).length = 14 := by
    simp [encodeCommentHistoryPrefix]
  unfold decodeCommentHistoryKey at readable
  split at readable
  · rename_i shape
    cases readable
    rw [stemLength]
    exact ⟨shape.1, rfl⟩
  · cases readable

private theorem revisionAfter_numbered {db : Pebble} {stem : Bytes} {count : Nat}
    (numbered : NumberedTo db stem count) (small : count < 0xff000000)
    {decode : Bytes → Option UInt32} (reads : ∀ number, decode (numberedKey stem number) = some number) :
    (revisionAfter (scanPrefix db stem) decode).toNat = count + 1 := by
  have last := numbered.scan_last small
  unfold revisionAfter
  cases atEnd : (scanPrefix db stem).getLast? with
  | none =>
      rw [atEnd] at last
      split at last
      · rename_i zero
        rw [zero]
        rfl
      · cases last
  | some entry =>
      rw [atEnd, Option.map_some] at last
      split at last
      · cases last
      · have key := Option.some.inj last
        have wide : (UInt32.ofNat count).toNat = count := by
          rw [UInt32.toNat_ofNat', Nat.mod_eq_of_lt (by omega)]
        have unit : (1 : UInt32).toNat = 1 := rfl
        dsimp only
        rw [key, reads, Option.map_some, Option.getD_some, UInt32.toNat_add, wide, unit,
          Nat.mod_eq_of_lt (by omega)]

theorem nextPostRevision_numbered {engine : Engine} {postID : UInt64} {count : Nat}
    (numbered : NumberedTo engine.historyDB (encodePostHistoryPrefix postID) count)
    (small : count < 0xff000000) : (engine.nextPostRevision postID).toNat = count + 1 := by
  apply revisionAfter_numbered numbered small
  intro number
  rw [← encodePostHistoryKey_eq, decodePostHistoryKey_encodePostHistoryKey]
  rfl

theorem nextCommentRevision_numbered {engine : Engine} {postID : UInt64} {sequence : UInt32}
    {count : Nat}
    (numbered : NumberedTo engine.historyDB (encodeCommentHistoryPrefix postID sequence) count)
    (small : count < 0xff000000) :
    (engine.nextCommentRevision postID sequence).toNat = count + 1 := by
  apply revisionAfter_numbered numbered small
  intro number
  rw [← encodeCommentHistoryKey_eq, decodeCommentHistoryKey_encodeCommentHistoryKey]
  rfl

/-! ### Families do not overlap -/

theorem commentHistoryKey_outside_post (postID otherID : UInt64) (sequence revision : UInt32) :
    ¬ encodePostHistoryPrefix postID <+: encodeCommentHistoryKey otherID sequence revision := by
  rintro ⟨rest, same⟩
  exact absurd (List.cons.inj same).1 (by decide)

theorem postHistoryKey_outside_comment (postID otherID : UInt64) (sequence revision : UInt32) :
    ¬ encodeCommentHistoryPrefix postID sequence <+: encodePostHistoryKey otherID revision := by
  rintro ⟨rest, same⟩
  exact absurd (List.cons.inj same).1 (by decide)

theorem commentHistoryKey_outside_floor {postID : UInt64} {sequence other : UInt32}
    (different : other ≠ sequence) (revision : UInt32) :
    ¬ encodeCommentHistoryPrefix postID sequence <+:
      encodeCommentHistoryKey postID other revision := by
  rintro ⟨rest, same⟩
  rw [encodeCommentHistoryKey_eq, numberedKey] at same
  have stems := (List.append_inj same (by simp [encodeCommentHistoryPrefix])).1
  simp only [encodeCommentHistoryPrefix, List.cons.injEq, true_and, List.append_assoc,
    List.append_cancel_left_eq] at stems
  exact different (putUint32_inj.mp (List.append_cancel_right stems)).symm

end Engine

end Pttbbs.PostSvc
