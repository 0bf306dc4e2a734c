/-
What a purge leaves behind.

A purge finds the keys of a post by bounded scans and by reading its comments.
The keys stored by an engine are of a few forms, the numbers in them stay below
the end of a scan, and an entry of the author index belongs to a comment that
names the same author and time, as long as every step of a run sees to it.  From
then on a purge finds every key.
-/

import Pttbbs.PostSvc.Run
import Pttbbs.PostSvc.Tables
import Pttbbs.PostSvc.EditSteps

namespace Pttbbs.PostSvc

open Pttbbs.Lib

/-! ### What a purge promises -/

namespace Engine

/-- No key, row, counter or pending change is about the post, and no crosspost
row mentions it. -/
structure Gone (engine : Engine) (id : UInt64) (community postFile : Bytes) : Prop where
  keys : ∀ key, KeyOf id key →
    engine.postsDB.get? key = none ∧ engine.commentsDB.get? key = none ∧
      engine.votesDB.get? key = none ∧ engine.historyDB.get? key = none
  row : engine.metaDB.posts.get? id = none
  crossposts : ∀ rowID row, engine.metaDB.crossposts.get? rowID = some row →
    row.sourcePostID ≠ id ∧ ¬ (row.targetCommunity = community ∧ row.targetPostFile = postFile)
  sequence : engine.postSeqs.get? id = none
  pending : engine.dirtyDeltas.get? id = none

/-- Nothing has changed but what is about some posts and the crosspost rows that
are dropped with them.  Pending changes of the other posts are in their rows. -/
structure OthersKept (before after : Engine) (purged : UInt64 → Prop)
    (dropped : CrosspostRow → Bool) : Prop where
  keys : ∀ key, (∀ id, purged id → ¬ KeyOf id key) →
    after.postsDB.get? key = before.postsDB.get? key ∧
      after.commentsDB.get? key = before.commentsDB.get? key ∧
      after.votesDB.get? key = before.votesDB.get? key ∧
      after.historyDB.get? key = before.historyDB.get? key
  rows : ∀ id, ¬ purged id → after.metaDB.posts.get? id =
    before.flushDirtyDeltas.metaDB.posts.get? id
  crossposts : ∀ rowID, after.metaDB.crossposts.get? rowID =
    (before.metaDB.crossposts.get? rowID).filter (fun row => !dropped row)
  sequences : ∀ id, ¬ purged id → after.postSeqs.get? id = before.postSeqs.get? id
  flushed : ∀ id, after.dirtyDeltas.get? id = none

/-- A record of a crosspost from another post that the rebuild reads as one of
these rows. -/
def CitedElsewhere (engine : Engine) (purged : UInt64 → Prop)
    (dropped : CrosspostRow → Bool) : Prop :=
  ∃ source sequence value, engine.postsDB.get? (encodeCrosspostKey source sequence) = some value ∧
    ¬ purged source ∧ dropped (crosspostRow (decodeRFC822Crosspost value)) = true

def droppedWith (id : UInt64) (community postFile : Bytes) (row : CrosspostRow) : Bool :=
  row.sourcePostID = id || (row.targetCommunity = community && row.targetPostFile = postFile)

/-! ### The keys that are stored -/

def commentAt (db : Pebble) (postID : UInt64) (sequence : UInt32) : Option Comment :=
  (db.get? (encodeCommentKey postID sequence)).bind (decodeRFC822Comment postID sequence)

def indexKey (comment : Comment) : Bytes :=
  encodeAuthorCommentKey comment.creatorName comment.createdAt comment.postID comment.sequence

structure Tidy (engine : Engine) : Prop where
  posts : ∀ key, (engine.postsDB.get? key).isSome →
    (∃ id, key = encodePostKey id) ∨
      ∃ id sequence, key = encodeCrosspostKey id sequence ∧ sequence.toNat < 0xff000000
  comments : ∀ key, (engine.commentsDB.get? key).isSome →
    ∃ comment, commentAt engine.commentsDB comment.postID comment.sequence = some comment ∧
      LineFree comment.creatorName ∧ comment.sequence.toNat < 0xff000000 ∧
      (key = encodeCommentKey comment.postID comment.sequence ∨ key = indexKey comment)
  votes : ∀ key, (engine.votesDB.get? key).isSome →
    ∃ id user, key = encodeVoteKey id user ∧ ∀ byte ∈ user.head?, byte < 0xff
  history : ∀ key, (engine.historyDB.get? key).isSome →
    (∃ id revision, key = encodePostHistoryKey id revision ∧ revision.toNat < 0xff000000) ∨
      ∃ id sequence revision, key = encodeCommentHistoryKey id sequence revision ∧
        revision.toNat < 0xff000000 ∧
        (engine.commentsDB.get? (encodeCommentKey id sequence)).isSome
  recorded : ∀ id, (engine.metaDB.posts.get? id).isSome →
    (engine.postsDB.get? (encodePostKey id)).isSome

theorem commentAt_ids {db : Pebble} {postID : UInt64} {sequence : UInt32} {comment : Comment}
    (found : commentAt db postID sequence = some comment) :
    comment.postID = postID ∧ comment.sequence = sequence := by
  obtain ⟨value, _stored, decoded⟩ := Option.bind_eq_some_iff.mp found
  obtain ⟨record, _read, rfl⟩ := Option.map_eq_some_iff.mp decoded
  exact ⟨rfl, rfl⟩

theorem commentAt_set_self (db : Pebble) (comment : Comment) :
    commentAt (db.set (encodeCommentKey comment.postID comment.sequence)
        (encodeRFC822Comment comment)) comment.postID comment.sequence =
      some (storedComment comment.postID comment.sequence comment) := by
  unfold commentAt
  rw [OrderedMap.get?_set_self, Option.bind_some, decodeRFC822Comment_encodeRFC822Comment]

theorem commentAt_set_of_ne (db : Pebble) {key value : Bytes} {postID : UInt64}
    {sequence : UInt32} (different : encodeCommentKey postID sequence ≠ key) :
    commentAt (db.set key value) postID sequence = commentAt db postID sequence := by
  unfold commentAt
  rw [OrderedMap.get?_set_of_ne _ _ different]

theorem isSome_of_commentAt {db : Pebble} {postID : UInt64} {sequence : UInt32}
    {comment : Comment} (found : commentAt db postID sequence = some comment) :
    (db.get? (encodeCommentKey postID sequence)).isSome := by
  obtain ⟨value, stored, _decoded⟩ := Option.bind_eq_some_iff.mp found
  rw [stored]
  rfl

theorem indexKey_ne_commentKey (comment : Comment) (postID : UInt64) (sequence : UInt32) :
    indexKey comment ≠ encodeCommentKey postID sequence :=
  encodeAuthorCommentKey_ne_encodeCommentKey _ _ _ _ _ _

theorem Tidy.commentAt_isSome {engine : Engine} (tidy : engine.Tidy) {id : UInt64}
    {sequence : UInt32}
    (taken : (engine.commentsDB.get? (encodeCommentKey id sequence)).isSome) :
    ∃ comment, commentAt engine.commentsDB id sequence = some comment ∧
      LineFree comment.creatorName ∧ sequence.toNat < 0xff000000 := by
  obtain ⟨comment, found, free, small, same | indexed⟩ := tidy.comments _ taken
  · obtain ⟨rfl, rfl⟩ := encodeCommentKey_inj.mp same
    exact ⟨comment, found, free, small⟩
  · exact absurd indexed.symm (indexKey_ne_commentKey _ _ _)

/-! ### Purging the records of a post -/

section PurgeRecords

variable {engine : Engine} {id : UInt64} {key : Bytes}

theorem keyOf_purgedPostKeys (listed : key ∈ engine.purgedPostKeys id) : KeyOf id key := by
  rcases List.mem_cons.mp listed with own | scanned
  · rw [own]
    exact keyOf_postKey.mpr rfl
  · obtain ⟨entry, member, rfl⟩ := List.mem_map.mp scanned
    obtain ⟨_stored, suffix, split, _low⟩ := (mem_scanPrefix _ _ _).mp member
    rw [split]
    exact (keyOf_iff_of_id (by decide)).mpr rfl

theorem keyOf_purgedCommentKeys (listed : key ∈ engine.purgedCommentKeys id) : KeyOf id key := by
  obtain ⟨entry, member, among⟩ := List.mem_flatMap.mp listed
  rcases List.mem_append.mp among with indexed | own
  · obtain ⟨floor, _decoded, found⟩ := Option.bind_eq_some_iff.mp (Option.mem_toList.mp indexed)
    obtain ⟨comment, _read, rfl⟩ := Option.map_eq_some_iff.mp found
    exact keyOf_authorKey.mpr rfl
  · rw [List.mem_singleton.mp own]
    obtain ⟨_stored, suffix, split, _low⟩ := (mem_scanPrefix _ _ _).mp member
    rw [split]
    exact (keyOf_iff_of_id (by decide)).mpr rfl

theorem keyOf_purgedVoteKeys (listed : key ∈ engine.purgedVoteKeys id) : KeyOf id key := by
  obtain ⟨entry, member, rfl⟩ := List.mem_map.mp listed
  obtain ⟨_stored, suffix, split, _low⟩ := (mem_scanPrefix _ _ _).mp member
  rw [split]
  exact (keyOf_iff_of_id (by decide)).mpr rfl

theorem keyOf_purgedHistoryKeys (listed : key ∈ engine.purgedHistoryKeys id) : KeyOf id key := by
  rcases List.mem_append.mp listed with own | ofComment
  · obtain ⟨entry, member, rfl⟩ := List.mem_map.mp own
    obtain ⟨_stored, suffix, split, _low⟩ := (mem_scanPrefix _ _ _).mp member
    rw [split]
    unfold encodePostHistoryPrefix
    rw [List.cons_append, List.append_assoc]
    exact (keyOf_iff_of_id (by decide)).mpr rfl
  · obtain ⟨comment, _scanned, among⟩ := List.mem_flatMap.mp ofComment
    unfold purgedCommentHistory at among
    split at among
    · obtain ⟨entry, member, rfl⟩ := List.mem_map.mp among
      obtain ⟨_stored, suffix, split, _low⟩ := (mem_scanPrefix _ _ _).mp member
      rw [split]
      unfold encodeCommentHistoryPrefix
      rw [List.append_assoc, List.cons_append, List.append_assoc]
      exact (keyOf_iff_of_id (by decide)).mpr rfl
    · cases among

theorem purgeRecords_kept (other : ¬ KeyOf id key) :
    (engine.purgeRecords id).postsDB.get? key = engine.postsDB.get? key ∧
      (engine.purgeRecords id).commentsDB.get? key = engine.commentsDB.get? key ∧
      (engine.purgeRecords id).votesDB.get? key = engine.votesDB.get? key ∧
      (engine.purgeRecords id).historyDB.get? key = engine.historyDB.get? key := by
  unfold purgeRecords
  simp only [OrderedMap.get?_deleteAll]
  refine ⟨?_, ?_, ?_, ?_⟩
  · exact if_neg (fun listed => other (keyOf_purgedPostKeys listed))
  · exact if_neg (fun listed => other (keyOf_purgedCommentKeys listed))
  · exact if_neg (fun listed => other (keyOf_purgedVoteKeys listed))
  · exact if_neg (fun listed => other (keyOf_purgedHistoryKeys listed))

theorem purgedPostKeys_of_keyOf (tidy : engine.Tidy) (own : KeyOf id key)
    (stored : (engine.postsDB.get? key).isSome) : key ∈ engine.purgedPostKeys id := by
  rcases tidy.posts key stored with ⟨other, rfl⟩ | ⟨source, sequence, rfl, small⟩
  · rw [keyOf_postKey.mp own]
    exact List.mem_cons_self
  · rw [keyOf_crosspostKey.mp own]
    obtain ⟨value, found⟩ := Option.isSome_iff_exists.mp stored
    exact List.mem_cons_of_mem _
      (List.mem_map_of_mem (mem_scanPrefix_of_small found small))

theorem scanned_comment (tidy : engine.Tidy) {sequence : UInt32}
    (taken : (engine.commentsDB.get? (encodeCommentKey id sequence)).isSome) :
    ∃ value, (encodeCommentKey id sequence, value) ∈
      scanPrefix engine.commentsDB (encodeCommentPrefix id) := by
  obtain ⟨comment, _found, _free, small⟩ := tidy.commentAt_isSome taken
  obtain ⟨value, stored⟩ := Option.isSome_iff_exists.mp taken
  exact ⟨value, mem_scanPrefix_of_small stored small⟩

theorem purgedCommentKeys_of_keyOf (tidy : engine.Tidy) (own : KeyOf id key)
    (stored : (engine.commentsDB.get? key).isSome) : key ∈ engine.purgedCommentKeys id := by
  obtain ⟨comment, found, _free, small, ofComment⟩ := tidy.comments key stored
  have postID : id = comment.postID := by
    rcases ofComment with rfl | rfl
    · exact keyOf_commentKey.mp own
    · exact keyOf_authorKey.mp own
  obtain ⟨value, present, decoded⟩ := Option.bind_eq_some_iff.mp found
  rw [postID]
  refine List.mem_flatMap.mpr ⟨_, mem_scanPrefix_of_small present small, ?_⟩
  rcases ofComment with rfl | rfl
  · exact List.mem_append_right _ (List.mem_singleton.mpr rfl)
  · refine List.mem_append_left _ (Option.mem_toList.mpr ?_)
    unfold authorKeyOf
    rw [← encodeCommentKey_eq, decodeCommentKey_encodeCommentKey, Option.bind_some]
    dsimp only
    rw [decoded]
    rfl

theorem purgedVoteKeys_of_keyOf (tidy : engine.Tidy) (own : KeyOf id key)
    (stored : (engine.votesDB.get? key).isSome) : key ∈ engine.purgedVoteKeys id := by
  obtain ⟨postID, user, rfl, low⟩ := tidy.votes key stored
  rw [keyOf_voteKey.mp own]
  obtain ⟨value, found⟩ := Option.isSome_iff_exists.mp stored
  have scanned : (encodeVoteKey postID user, value) ∈
      scanPrefix engine.votesDB (encodeVotePrefix postID) :=
    (mem_scanPrefix _ _ _).mpr ⟨found, user, rfl, low⟩
  exact List.mem_map_of_mem scanned

theorem purgedHistoryKeys_of_keyOf (tidy : engine.Tidy) (own : KeyOf id key)
    (stored : (engine.historyDB.get? key).isSome) : key ∈ engine.purgedHistoryKeys id := by
  obtain ⟨value, found⟩ := Option.isSome_iff_exists.mp stored
  rcases tidy.history key stored with
    ⟨postID, revision, rfl, small⟩ | ⟨postID, sequence, revision, rfl, small, taken⟩
  · rw [keyOf_postHistoryKey.mp own]
    rw [encodePostHistoryKey_eq] at found ⊢
    exact List.mem_append_left _
      (List.mem_map_of_mem (mem_scanPrefix_of_small found small))
  · rw [keyOf_commentHistoryKey.mp own]
    obtain ⟨comment, scanned⟩ := scanned_comment tidy taken
    refine List.mem_append_right _ (List.mem_flatMap.mpr ⟨_, scanned, ?_⟩)
    unfold purgedCommentHistory
    rw [decodeCommentKey_encodeCommentKey]
    rw [encodeCommentHistoryKey_eq] at found ⊢
    exact List.mem_map_of_mem (mem_scanPrefix_of_small found small)

private theorem get?_deleteAll_eq_none {db : Pebble} {keys : List Bytes}
    (listed : (db.get? key).isSome → key ∈ keys) : (db.deleteAll keys).get? key = none := by
  rw [OrderedMap.get?_deleteAll]
  split
  · rfl
  · rename_i unlisted
    cases found : db.get? key with
    | none => rfl
    | some value => exact absurd (listed (by rw [found]; rfl)) unlisted

theorem purgeRecords_gone (tidy : engine.Tidy) (own : KeyOf id key) :
    (engine.purgeRecords id).postsDB.get? key = none ∧
      (engine.purgeRecords id).commentsDB.get? key = none ∧
      (engine.purgeRecords id).votesDB.get? key = none ∧
      (engine.purgeRecords id).historyDB.get? key = none :=
  ⟨get?_deleteAll_eq_none (purgedPostKeys_of_keyOf tidy own),
    get?_deleteAll_eq_none (purgedCommentKeys_of_keyOf tidy own),
    get?_deleteAll_eq_none (purgedVoteKeys_of_keyOf tidy own),
    get?_deleteAll_eq_none (purgedHistoryKeys_of_keyOf tidy own)⟩

theorem isSome_of_deleteAll {db : Pebble} {keys : List Bytes}
    (left : ((db.deleteAll keys).get? key).isSome) : (db.get? key).isSome := by
  rw [OrderedMap.get?_deleteAll] at left
  split at left
  · cases left
  · exact left

theorem commentAt_purgeRecords {other : UInt64} (different : id ≠ other) (sequence : UInt32) :
    commentAt (engine.purgeRecords id).commentsDB other sequence =
      commentAt engine.commentsDB other sequence := by
  unfold commentAt
  rw [(purgeRecords_kept (fun own => different (keyOf_commentKey.mp own))).2.1]

end PurgeRecords

/-! ### Steps that keep the keys tidy -/

namespace Tidy

variable {engine before after : Engine} {id : UInt64}

theorem of_stores (tidy : before.Tidy) (posts : after.postsDB = before.postsDB)
    (comments : after.commentsDB = before.commentsDB) (votes : after.votesDB = before.votesDB)
    (history : after.historyDB = before.historyDB)
    (rows : ∀ id, (after.metaDB.posts.get? id).isSome → (before.metaDB.posts.get? id).isSome) :
    after.Tidy where
  posts := by
    rw [posts]
    exact tidy.posts
  comments := by
    rw [comments]
    exact tidy.comments
  votes := by
    rw [votes]
    exact tidy.votes
  history := by
    rw [history, comments]
    exact tidy.history
  recorded := by
    intro id row
    rw [posts]
    exact tidy.recorded id (rows id row)

theorem of_recordFrame (tidy : before.Tidy) (frame : RecordFrame id before after) :
    after.Tidy where
  posts := by
    intro key stored
    by_cases own : key = encodePostKey id
    · exact Or.inl ⟨id, own⟩
    · rw [frame.others key own] at stored
      exact tidy.posts key stored
  comments := by
    rw [frame.commentsDB]
    exact tidy.comments
  votes := by
    rw [frame.votesDB]
    exact tidy.votes
  history := by
    rw [frame.historyDB, frame.commentsDB]
    exact tidy.history
  recorded := by
    intro other row
    rw [frame.metaDB] at row
    have recorded := tidy.recorded other row
    by_cases same : other = id
    · subst same
      exact frame.kept recorded
    · rw [frame.others _ (fun equal => same (encodePostKey_inj.mp equal))]
      exact recorded

theorem setPostRecord (tidy : before.Tidy) (post : Post) (metaDB : MetaDB)
    (rows : ∀ other, (metaDB.posts.get? other).isSome →
      (before.metaDB.posts.get? other).isSome ∨ other = post.id) :
    (Engine.setPostRecord { before with metaDB := metaDB } post).Tidy where
  posts := by
    intro key stored
    by_cases own : key = encodePostKey post.id
    · exact Or.inl ⟨post.id, own⟩
    · unfold Engine.setPostRecord at stored
      rw [OrderedMap.get?_set_of_ne _ _ own] at stored
      exact tidy.posts key stored
  comments := tidy.comments
  votes := tidy.votes
  history := tidy.history
  recorded := by
    intro other row
    unfold Engine.setPostRecord
    by_cases same : other = post.id
    · rw [same, OrderedMap.get?_set_self]
      rfl
    · rw [OrderedMap.get?_set_of_ne _ _ (fun equal => same (encodePostKey_inj.mp equal))]
      exact tidy.recorded other ((rows other row).resolve_right same)

theorem setCrosspostRecord (tidy : engine.Tidy) {sequence : UInt32}
    (small : sequence.toNat < 0xff000000) (crosspost : CrosspostRecord) :
    (engine.setCrosspostRecord sequence crosspost).Tidy where
  posts := by
    intro key stored
    by_cases own : key = encodeCrosspostKey crosspost.sourcePostID sequence
    · exact Or.inr ⟨_, _, own, small⟩
    · unfold Engine.setCrosspostRecord at stored
      rw [OrderedMap.get?_set_of_ne _ _ own] at stored
      exact tidy.posts key stored
  comments := tidy.comments
  votes := tidy.votes
  history := tidy.history
  recorded := by
    intro other row
    unfold Engine.setCrosspostRecord
    rw [OrderedMap.get?_set_of_ne _ _ (encodeCrosspostKey_ne_encodePostKey _ _ _).symm]
    exact tidy.recorded other row

theorem setVotes (tidy : engine.Tidy) {votesDB : Pebble}
    (keys : ∀ key, (votesDB.get? key).isSome → (engine.votesDB.get? key).isSome ∨
      ∃ id user, key = encodeVoteKey id user ∧ ∀ byte ∈ user.head?, byte < 0xff) :
    Tidy { engine with votesDB := votesDB } where
  posts := tidy.posts
  comments := tidy.comments
  votes := by
    intro key stored
    rcases keys key stored with old | new
    · exact tidy.votes key old
    · exact new
  history := tidy.history
  recorded := tidy.recorded

theorem setPostRevision (tidy : engine.Tidy) (revision : PostRevision)
    (small : revision.revision.toNat < 0xff000000) : (engine.setPostRevision revision).Tidy where
  posts := tidy.posts
  comments := tidy.comments
  votes := tidy.votes
  history := by
    intro key stored
    by_cases own : key = encodePostHistoryKey revision.postID revision.revision
    · exact Or.inl ⟨_, _, own, small⟩
    · unfold Engine.setPostRevision at stored
      rw [OrderedMap.get?_set_of_ne _ _ own] at stored
      exact tidy.history key stored
  recorded := tidy.recorded

theorem setCommentRevision (tidy : engine.Tidy) (revision : CommentRevision)
    (small : revision.revision.toNat < 0xff000000)
    (taken : (engine.commentsDB.get?
      (encodeCommentKey revision.postID revision.sequence)).isSome) :
    (engine.setCommentRevision revision).Tidy where
  posts := tidy.posts
  comments := tidy.comments
  votes := tidy.votes
  history := by
    intro key stored
    by_cases own : key =
        encodeCommentHistoryKey revision.postID revision.sequence revision.revision
    · exact Or.inr ⟨_, _, _, own, small, taken⟩
    · unfold Engine.setCommentRevision at stored
      rw [OrderedMap.get?_set_of_ne _ _ own] at stored
      exact tidy.history key stored
  recorded := tidy.recorded

theorem setComments (tidy : engine.Tidy) {commentsDB : Pebble}
    (keys : ∀ key, (commentsDB.get? key).isSome → (engine.commentsDB.get? key).isSome)
    (kept : ∀ id sequence comment, commentAt engine.commentsDB id sequence = some comment →
      LineFree comment.creatorName →
      ∃ changed, commentAt commentsDB id sequence = some changed ∧
        changed.creatorName = comment.creatorName ∧ changed.createdAt = comment.createdAt) :
    Tidy { engine with commentsDB := commentsDB } where
  posts := tidy.posts
  comments := by
    intro key stored
    obtain ⟨comment, found, free, small, form⟩ := tidy.comments key (keys key stored)
    obtain ⟨changed, there, name, time⟩ := kept _ _ comment found free
    obtain ⟨postID, sequence⟩ := commentAt_ids there
    refine ⟨changed, ?_, ?_, ?_, ?_⟩
    · rw [postID, sequence]
      exact there
    · rw [name]
      exact free
    · rw [sequence]
      exact small
    · unfold indexKey at form ⊢
      rw [postID, sequence, name, time]
      exact form
  votes := tidy.votes
  history := by
    intro key stored
    rcases tidy.history key stored with post | ⟨id, sequence, revision, own, small, taken⟩
    · exact Or.inl post
    · obtain ⟨comment, found, free, _small⟩ := tidy.commentAt_isSome taken
      obtain ⟨changed, there, _name, _time⟩ := kept _ _ comment found free
      exact Or.inr ⟨id, sequence, revision, own, small, isSome_of_commentAt there⟩
  recorded := tidy.recorded

theorem setCommentRecord (tidy : engine.Tidy) {comment : Comment} (changed : Comment)
    (found : commentAt engine.commentsDB changed.postID changed.sequence = some comment)
    (name : changed.creatorName = comment.creatorName)
    (time : changed.createdAt = comment.createdAt) : (engine.setCommentRecord changed).Tidy := by
  refine tidy.setComments ?_ ?_
  · intro key stored
    by_cases own : key = encodeCommentKey changed.postID changed.sequence
    · rw [own]
      exact isSome_of_commentAt found
    · rw [OrderedMap.get?_set_of_ne _ _ own] at stored
      exact stored
  · intro id sequence other there free
    by_cases same : id = changed.postID ∧ sequence = changed.sequence
    · obtain ⟨rfl, rfl⟩ := same
      rw [found] at there
      cases there
      refine ⟨_, commentAt_set_self _ changed, ?_, time⟩
      change headerValue changed.creatorName = _
      rw [name, headerValue_of_lineFree free]
    · refine ⟨other, ?_, rfl, rfl⟩
      rw [commentAt_set_of_ne _ (fun equal => same (encodeCommentKey_inj.mp equal))]
      exact there

theorem writeComment (tidy : engine.Tidy) {comment : Comment}
    (small : comment.sequence.toNat < 0xff000000)
    (named : padAuthor (headerValue comment.creatorName) = padAuthor comment.creatorName)
    (agrees : ∀ stored, commentAt engine.commentsDB comment.postID comment.sequence = some stored →
      indexKey stored = indexKey comment) :
    Tidy { engine with
      commentsDB := (engine.commentsDB.set
        (encodeCommentKey comment.postID comment.sequence) (encodeRFC822Comment comment)).set
        (indexKey comment) [] } := by
  have indexed : indexKey (storedComment comment.postID comment.sequence comment) =
      indexKey comment := by
    unfold indexKey encodeAuthorCommentKey
    rw [← named]
    rfl
  have there : commentAt ((engine.commentsDB.set
      (encodeCommentKey comment.postID comment.sequence) (encodeRFC822Comment comment)).set
      (indexKey comment) []) comment.postID comment.sequence =
      some (storedComment comment.postID comment.sequence comment) := by
    rw [commentAt_set_of_ne _ (indexKey_ne_commentKey _ _ _).symm]
    exact commentAt_set_self _ comment
  have elsewhere : ∀ id sequence, ¬ (id = comment.postID ∧ sequence = comment.sequence) →
      commentAt ((engine.commentsDB.set
        (encodeCommentKey comment.postID comment.sequence) (encodeRFC822Comment comment)).set
        (indexKey comment) []) id sequence = commentAt engine.commentsDB id sequence := by
    intro id sequence other
    rw [commentAt_set_of_ne _ (indexKey_ne_commentKey _ _ _).symm,
      commentAt_set_of_ne _ (fun equal => other (encodeCommentKey_inj.mp equal))]
  constructor
  · exact tidy.posts
  · intro key stored
    by_cases fresh : key = encodeCommentKey comment.postID comment.sequence ∨
        key = indexKey comment
    · refine ⟨storedComment comment.postID comment.sequence comment, there,
        headerValue_lineFree _, small, ?_⟩
      rw [indexed]
      exact fresh
    · rw [not_or] at fresh
      rw [OrderedMap.get?_set_of_ne _ _ fresh.2, OrderedMap.get?_set_of_ne _ _ fresh.1] at stored
      obtain ⟨old, found, free, low, form⟩ := tidy.comments key stored
      -- An entry of this floor would be the one just written.
      have other : ¬ (old.postID = comment.postID ∧ old.sequence = comment.sequence) := by
        rintro ⟨samePost, sameFloor⟩
        rcases form with own | index
        · exact fresh.1 (by rw [own, samePost, sameFloor])
        · rw [samePost, sameFloor] at found
          exact fresh.2 (by rw [index, agrees old found])
      refine ⟨old, ?_, free, low, form⟩
      rw [elsewhere _ _ other]
      exact found
  · exact tidy.votes
  · intro key stored
    rcases tidy.history key stored with post | ⟨id, sequence, revision, own, low, taken⟩
    · exact Or.inl post
    · refine Or.inr ⟨id, sequence, revision, own, low, ?_⟩
      rw [OrderedMap.get?_set_of_ne _ _ (indexKey_ne_commentKey _ _ _).symm, OrderedMap.get?_set]
      split
      · rfl
      · exact taken
  · exact tidy.recorded

theorem purgeRecords (tidy : engine.Tidy)
    (gone : engine.metaDB.posts.get? id = none) : (engine.purgeRecords id).Tidy := by
  constructor
  · intro key stored
    exact tidy.posts key (isSome_of_deleteAll stored)
  · intro key stored
    have other : ¬ KeyOf id key := by
      intro own
      rw [(purgeRecords_gone tidy own).2.1] at stored
      cases stored
    rw [(purgeRecords_kept other).2.1] at stored
    obtain ⟨comment, found, free, small, form⟩ := tidy.comments key stored
    have different : id ≠ comment.postID := by
      intro same
      rcases form with rfl | rfl
      · exact other (keyOf_commentKey.mpr same)
      · exact other (keyOf_authorKey.mpr same)
    refine ⟨comment, ?_, free, small, form⟩
    rw [commentAt_purgeRecords different]
    exact found
  · intro key stored
    exact tidy.votes key (isSome_of_deleteAll stored)
  · intro key stored
    have other : ¬ KeyOf id key := by
      intro own
      rw [(purgeRecords_gone tidy own).2.2.2] at stored
      cases stored
    rw [(purgeRecords_kept other).2.2.2] at stored
    rcases tidy.history key stored with post | ⟨postID, sequence, revision, rfl, small, taken⟩
    · exact Or.inl post
    · have different : ¬ KeyOf id (encodeCommentKey postID sequence) := by
        rw [keyOf_commentKey, ← keyOf_commentHistoryKey]
        exact other
      refine Or.inr ⟨postID, sequence, revision, rfl, small, ?_⟩
      rw [(purgeRecords_kept different).2.1]
      exact taken
  · intro other row
    have different : ¬ KeyOf id (encodePostKey other) := by
      rw [keyOf_postKey]
      rintro rfl
      change (engine.metaDB.posts.get? id).isSome at row
      rw [gone] at row
      cases row
    rw [(purgeRecords_kept different).1]
    exact tidy.recorded other row

end Tidy

/-! ### What a step has to see to -/

/-- A comment that a purge will find with its entry in the author index. -/
def Findable (engine : Engine) (comment : Comment) : Prop :=
  comment.sequence.toNat < 0xff000000 ∧
    padAuthor (headerValue comment.creatorName) = padAuthor comment.creatorName ∧
    ∀ stored ∈ commentAt engine.commentsDB comment.postID comment.sequence,
      indexKey stored = indexKey comment

instance (engine : Engine) (comment : Comment) : Decidable (engine.Findable comment) :=
  inferInstanceAs (Decidable (_ ∧ _ ∧ _))

/-- A merged comment changes neither author nor time. -/
def CommentFindable (cfg : Config) (engine : Engine) (now : Int64) (comment : Comment) : Prop :=
  match (engine.planComment cfg { comment with
    createdAt := if comment.createdAt = 0 then now else comment.createdAt }).2 with
  | .merge _ _ => True
  | .append added => engine.Findable added

def importedComment (id : UInt64) (numbered : Comment × Nat) : Comment :=
  { numbered.1 with postID := id, sequence := UInt32.ofNat (numbered.2 + 1) }

def ItemFindable (engine : Engine) (id : UInt64) (item : ImportedPostData) : Prop :=
  item.comments.length < 0xff000000 ∧
    (∀ numbered ∈ item.comments.zipIdx, engine.Findable (importedComment id numbered)) ∧
    (∀ record ∈ item.votes, record.vote = voteUp ∨ record.vote = voteDown →
      ∀ byte ∈ record.personName.head?, byte < 0xff) ∧
    item.crossposts.length < 0xff000000

def BatchFindable (cfg : Config) (engine : Engine) : List ImportedPostData → Prop
  | [] => True
  | item :: rest =>
      match engine.importPost cfg item with
      | (_, .error _) => True
      | (after, .ok id) => engine.ItemFindable id item ∧ BatchFindable cfg after rest

/-- The condition on a call: scans find what it writes. -/
def StaysFindable (cfg : Config) (engine : Engine) : Op → Prop
  | .createPost now post =>
      let post := preparePost now post
      let netText := extractNetNewContent post.content
      (post.parentID ≠ 0 && runeCount netText < cfg.minReplyRunes) = true →
        engine.CommentFindable cfg now (demotedComment post netText)
  | .updatePost _ edit => (engine.nextPostRevision edit.postID).toNat < 0xff000000
  | .updatePostTitle _ postID _ _ _ => (engine.nextPostRevision postID).toNat < 0xff000000
  | .deletePost _ postID _ _ _ => (engine.nextPostRevision postID).toNat < 0xff000000
  | .addComment now comment => engine.CommentFindable cfg now comment
  | .updateComment _ postID sequence _ _ _ =>
      (engine.nextCommentRevision postID sequence).toNat < 0xff000000
  | .deleteComment _ postID sequence _ _ _ =>
      (engine.nextCommentRevision postID sequence).toNat < 0xff000000
  | .votePost _ _ personName _ newVote _ _ =>
      newVote = voteUp ∨ newVote = voteDown → ∀ byte ∈ personName.head?, byte < 0xff
  | .addCrosspost _ call =>
      ∀ id ∈ engine.metaDB.findFile call.srcCommunity call.srcPostFile,
        ∀ row ∈ engine.metaDB.posts.get? id,
          (UInt32.ofInt (row.numCrossposts + 1)).toNat < 0xff000000
  | .importPostBatch batch => engine.BatchFindable cfg batch
  | _ => True

/-! ### One lemma for each operation -/

section Steps

variable {cfg : Config} {engine : Engine}

theorem tidy_start : Tidy {} where
  posts := fun _ stored => nomatch stored
  comments := fun _ stored => nomatch stored
  votes := fun _ stored => nomatch stored
  history := fun _ stored => nomatch stored
  recorded := fun _ row => nomatch row

theorem Tidy.updateRow (tidy : engine.Tidy) (id : UInt64) (change : PostRow → PostRow) :
    Tidy { engine with metaDB := engine.metaDB.updatePost id change } := by
  refine tidy.of_stores rfl rfl rfl rfl ?_
  intro other row
  unfold MetaDB.updatePost at row
  rw [OrderedMap.get?_modify] at row
  split at row
  · rename_i same
    rw [Option.isSome_map] at row
    rw [same]
    exact row
  · exact row

theorem Tidy.putRecord (tidy : engine.Tidy) (post : Post) : (engine.setPostRecord post).Tidy :=
  tidy.of_recordFrame (.setPostRecord engine rfl)

theorem Tidy.setSequences (tidy : engine.Tidy) (postSeqs : OrderedMap UInt64 UInt32) :
    Tidy { engine with postSeqs := postSeqs } :=
  tidy.of_stores rfl rfl rfl rfl (fun _ => id)

theorem Tidy.flush (tidy : engine.Tidy) : engine.flushDirtyDeltas.Tidy := by
  refine tidy.of_stores rfl rfl rfl rfl ?_
  intro id row
  unfold flushDirtyDeltas at row
  dsimp only at row
  rw [OrderedMap.get?_mapValues, Option.isSome_map] at row
  exact row

theorem Tidy.addDelta (tidy : engine.Tidy) (postID : UInt64) (change : PostDelta) :
    (engine.addDelta postID change).Tidy :=
  tidy.of_stores rfl rfl rfl rfl (fun _ => id)

theorem tidy_getPost (cfg : Config) (tidy : engine.Tidy) (postID : UInt64) :
    (engine.getPost cfg postID).1.Tidy :=
  tidy.of_recordFrame (getPost_frame cfg engine postID)

theorem nextPostRevision_of_history {other : Engine} (same : other.historyDB = engine.historyDB)
    (postID : UInt64) : other.nextPostRevision postID = engine.nextPostRevision postID := by
  unfold nextPostRevision
  rw [same]

theorem tidy_setPostMeta (tidy : engine.Tidy) (community postFile : Bytes)
    (filemode money : Int64) :
    (engine.setPostMeta cfg community postFile filemode money).1.Tidy := by
  unfold setPostMeta
  split
  · exact tidy
  · rename_i id found
    dsimp only
    have changed := tidy.updateRow id (fun row => { row with filemode := filemode, money := money })
    have reading := changed.of_recordFrame (getPost_frame cfg _ id)
    split
    · rename_i read
      rw [read] at reading
      exact reading
    · rename_i read
      rw [read] at reading
      exact reading.putRecord _

theorem Tidy.setRowDeletion (tidy : engine.Tidy) (post : Post) :
    (engine.setRowDeletion post).Tidy := by
  unfold Engine.setRowDeletion
  split
  · exact tidy.updateRow _ _
  · exact tidy

theorem tidy_editsPost {α : Type} {now : Int64} {id : UInt64} {make : Post → Post}
    {write : Engine → Post → Engine} {revisionOf : α → UInt32} {outcome : Outcome α}
    (tidy : engine.Tidy)
    (edits : EditsPost cfg engine now id make write revisionOf outcome)
    (keeps : ∀ (before : Engine) (post : Post), before.Tidy → (write before post).Tidy)
    (small : (engine.nextPostRevision id).toNat < 0xff000000) : outcome.1.Tidy := by
  have reading := tidy_getPost cfg tidy id
  cases edits with
  | leaves result nothing => exact reading
  | archives reader post editor action reason value read isRevision =>
      have frame := getPost_frame cfg engine id
      rw [read] at reading frame
      rw [← nextPostRevision_of_history frame.historyDB] at small
      exact (keeps _ _ (reading.setPostRevision _ small)).of_recordFrame
        (renderAndSave_frame cfg _ _)

theorem tidy_undeletePost (tidy : engine.Tidy) (now : Int64) (postID : UInt64) :
    (engine.undeletePost cfg now postID).1.Tidy := by
  have reading := tidy_getPost cfg tidy postID
  unfold undeletePost
  split
  · rename_i read
    rw [read] at reading
    exact reading
  · rename_i reader post read
    rw [read] at reading
    split
    · exact ((reading.putRecord _).setRowDeletion _).of_recordFrame (renderAndSave_frame cfg _ _)
    · exact reading

/-! #### Comments -/

theorem tidy_touchPost (tidy : engine.Tidy) (now : Int64) (postID : UInt64) :
    (engine.touchPost cfg now postID).Tidy := by
  have reading := tidy_getPost cfg tidy postID
  unfold touchPost
  split
  · rename_i read
    rw [read] at reading
    exact reading
  · rename_i reader post read
    rw [read] at reading
    exact (reading.updateRow _ _).of_recordFrame (renderAndSave_frame cfg _ _)

theorem tidy_editsComment {now : Int64} {postID : UInt64} {sequence : UInt32}
    {make : Comment → Comment} {ends : Engine → Engine} {outcome : Outcome UInt32}
    (tidy : engine.Tidy)
    (edits : EditsComment engine now postID sequence make ends outcome)
    (made : ∀ comment, (make comment).postID = comment.postID ∧
      (make comment).sequence = comment.sequence ∧
      (make comment).creatorName = comment.creatorName ∧
      (make comment).createdAt = comment.createdAt)
    (keeps : ∀ before : Engine, before.Tidy → (ends before).Tidy)
    (small : (engine.nextCommentRevision postID sequence).toNat < 0xff000000) :
    outcome.1.Tidy := by
  cases edits with
  | leaves result nothing => exact tidy
  | archives comment editor action reason found =>
      obtain ⟨rfl, rfl⟩ := commentAt_ids found
      have archived := tidy.setCommentRevision
        (revisionOfComment comment (engine.nextCommentRevision comment.postID comment.sequence) now
          editor action reason) small (isSome_of_commentAt found)
      obtain ⟨samePost, sameFloor, name, time⟩ := made comment
      exact keeps _ (archived.setCommentRecord (make comment)
        (by rw [samePost, sameFloor]; exact found) name time)

theorem tidy_undeleteComment (tidy : engine.Tidy) (postID : UInt64) (sequence : UInt32) :
    (engine.undeleteComment cfg postID sequence).1.Tidy := by
  unfold undeleteComment
  split
  · exact tidy
  · rename_i comment read
    have found : commentAt engine.commentsDB postID sequence = some comment := readComment_ok read
    obtain ⟨rfl, rfl⟩ := commentAt_ids found
    split
    · have written := tidy.setCommentRecord
        { comment with deletion := Deletion.restore } found rfl rfl
      exact written.of_recordFrame (rerenderPost_frame cfg _ _)
    · exact tidy

theorem tidy_addComment (tidy : engine.Tidy) (now : Int64) (comment : Comment)
    (findable : engine.CommentFindable cfg now comment) :
    (engine.addComment cfg now comment).1.Tidy := by
  unfold CommentFindable at findable
  unfold addComment
  dsimp only
  generalize { comment with
    createdAt := if comment.createdAt = 0 then now else comment.createdAt } = stamped at findable ⊢
  have plan := planComment_cases cfg engine stamped
  dsimp only at plan
  rcases plan with ⟨previous, found, planned⟩ | planned
  · rw [planned]
    obtain ⟨samePost, sameFloor⟩ := getComment_ids found
    have counted := tidy.setSequences
      (engine.postSeqs.set stamped.postID (engine.lastSequence stamped.postID))
    have there : commentAt engine.commentsDB previous.postID previous.sequence = some previous := by
      rw [samePost, sameFloor]
      exact found
    have written := counted.setCommentRecord
      (mergeComment previous { stamped with
        content := truncateCommentLines stamped.content maxCommentLines }) there rfl rfl
    exact written.of_recordFrame (appendMergedCommentCache_frame cfg _ _ _)
  · rw [planned] at findable ⊢
    obtain ⟨small, named, agrees⟩ := findable
    have counted := tidy.setSequences
      (engine.postSeqs.set stamped.postID (engine.lastSequence stamped.postID + 1))
    have written := counted.writeComment small named agrees
    exact (written.addDelta _ _).of_recordFrame (appendCommentCache_frame cfg _ _)

/-! #### Creating, crossposting and voting -/

theorem rows_putPost {metaDB : MetaDB} {id : UInt64} {row : PostRow} {other : UInt64}
    (present : ((metaDB.putPost id row).posts.get? other).isSome) :
    (metaDB.posts.get? other).isSome ∨ other = id := by
  by_cases same : other = id
  · exact Or.inr same
  · rw [MetaDB.get?_putPost_of_ne _ _ same] at present
    exact Or.inl present

theorem tidy_insertNewPost (tidy : engine.Tidy) (post : Post) :
    (engine.insertNewPost cfg post).1.Tidy := by
  obtain ⟨counter, counted⟩ := candidateID_frame cfg engine post
  have waiting : Tidy { engine with postSeqCounter := counter } :=
    tidy.of_stores rfl rfl rfl rfl (fun _ => id)
  unfold insertNewPost
  dsimp only
  rw [counted]
  split
  · exact waiting
  · rename_i metaDB id inserted
    obtain ⟨added, _choice, _free, _file, _bound⟩ := MetaDB.insertPost_ok inserted
    have stored := waiting.setPostRecord { post with id := id } metaDB (by
      intro other present
      rw [added] at present
      exact rows_putPost present)
    exact (stored.of_recordFrame (renderAndSave_frame cfg _ _)).of_recordFrame
      (writePostCache_frame id cfg _ _)

theorem tidy_createPost (tidy : engine.Tidy) (now : Int64) (post : Post)
    (findable : engine.StaysFindable cfg (.createPost now post)) :
    (engine.createPost cfg now post).1.Tidy := by
  unfold StaysFindable at findable
  dsimp only at findable
  unfold createPost
  dsimp only
  split
  · rename_i short
    exact tidy_addComment tidy now _ (findable short)
  · split
    · exact tidy.putRecord _
    · exact tidy_insertNewPost tidy _

theorem tidy_addCrosspost (tidy : engine.Tidy) (now : Int64) (call : CrosspostCall)
    (findable : engine.StaysFindable cfg (.addCrosspost now call)) :
    (engine.addCrosspost cfg now call.srcCommunity call.srcPostFile call.targetCommunity
      call.targetPostFile call.creatorName call.creatorID call.createdAt).1.Tidy := by
  have small : ∀ id, engine.metaDB.findFile call.srcCommunity call.srcPostFile = some id →
      ∀ row, engine.metaDB.posts.get? id = some row →
        (UInt32.ofInt (row.numCrossposts + 1)).toNat < 0xff000000 := findable
  unfold addCrosspost getPostByCommunityFile
  cases found : engine.metaDB.findFile call.srcCommunity call.srcPostFile with
  | none => exact tidy
  | some id =>
      dsimp only
      have reading := tidy_getPost cfg tidy id
      have frame := getPost_frame cfg engine id
      cases read : engine.getPost cfg id with
      | mk reader result =>
          rw [read] at reading frame
          cases result with
          | error failure => exact reading
          | ok source =>
              obtain ⟨row, stored, _rest⟩ := getPost_ok read
              have sourceID := getPost_id read
              dsimp only
              split
              · exact reading
              · rename_i metaDB rowID inserted
                obtain ⟨_next, changed, _bound⟩ := MetaDB.insertCrosspost_ok inserted
                have rows : metaDB.posts = engine.metaDB.posts := by
                  rw [changed, ← frame.metaDB]
                have current : metaDB.posts.get? source.id = some row := by
                  rw [rows, sourceID]
                  exact stored
                have counted : (((metaDB.updatePost source.id (fun row =>
                    { row with numCrossposts := row.numCrossposts + 1 })).posts.get?
                    source.id).map PostRow.numCrossposts).getD 0 = row.numCrossposts + 1 := by
                  unfold MetaDB.updatePost
                  rw [OrderedMap.get?_modify_self, current]
                  rfl
                have renewed : Tidy { reader with metaDB := metaDB } := by
                  refine reading.of_stores rfl rfl rfl rfl ?_
                  intro other present
                  rw [frame.metaDB, ← rows]
                  exact present
                refine ((renewed.updateRow source.id _).setCrosspostRecord ?_ _).putRecord _
                rw [counted]
                exact small id found row stored

theorem tidy_votePost (tidy : engine.Tidy) (now : Int64) (postID : UInt64) (personName : Bytes)
    (personID : PersonID) (newVote : VoteType) (createdAt : Int64) (ip : Bytes)
    (low : newVote = voteUp ∨ newVote = voteDown → ∀ byte ∈ personName.head?, byte < 0xff) :
    (engine.votePost now postID personName personID newVote createdAt ip).1.Tidy := by
  unfold votePost
  dsimp only
  split
  · exact tidy
  · refine Tidy.addDelta ?_ _ _
    unfold writeVote
    dsimp only
    split
    · rename_i counts
      refine tidy.setVotes ?_
      intro key stored
      by_cases own : key = encodeVoteKey postID personName
      · exact Or.inr ⟨_, _, own, low (by simpa using counts)⟩
      · rw [OrderedMap.get?_set_of_ne _ _ own] at stored
        exact Or.inl stored
    · refine tidy.setVotes ?_
      intro key stored
      rw [OrderedMap.get?_delete] at stored
      split at stored
      · cases stored
      · exact Or.inl stored

theorem tidy_resetVotes (tidy : engine.Tidy) (postID : UInt64) :
    (engine.resetVotes postID).Tidy := by
  have deleted : Tidy { engine with
      votesDB := engine.votesDB.deleteAll
        ((scanPrefix engine.votesDB (encodeVotePrefix postID)).map Prod.fst) } :=
    tidy.setVotes (fun key stored => Or.inl (isSome_of_deleteAll stored))
  exact (deleted.updateRow postID _).of_stores rfl rfl rfl rfl (fun _ => id)

/-! #### Purging -/

theorem tidy_purgeUserComments (tidy : engine.Tidy) (author : Bytes) (minTimestamp : Int64) :
    (engine.purgeUserComments author minTimestamp).1.Tidy := by
  unfold purgeUserComments
  dsimp only
  have indexed : ∀ target ∈ engine.authorTargets author minTimestamp,
      target.1.head? = some letterU := by
    intro target member
    obtain ⟨entry, scanned, found⟩ := List.mem_filterMap.mp member
    obtain ⟨_stored, stemmed⟩ := (mem_seekPrefix _ _ _).mp scanned
    obtain ⟨rest, split⟩ := stemmed
    split at found
    · split at found
      · cases found
        rw [← split]
        rfl
      · cases found
    · cases found
  generalize engine.authorTargets author minTimestamp = targets at indexed ⊢
  -- Index entries go, and the comments they name keep author and time.
  have folded : ∀ db : Pebble,
      (∀ key, (db.get? key).isSome → (engine.commentsDB.get? key).isSome) →
      (∀ id sequence comment, commentAt engine.commentsDB id sequence = some comment →
        LineFree comment.creatorName → ∃ changed, commentAt db id sequence = some changed ∧
          changed.creatorName = comment.creatorName ∧ changed.createdAt = comment.createdAt) →
      Tidy { engine with
        commentsDB := targets.foldl (purgeTarget engine.commentsDB) db } := by
    induction targets with
    | nil =>
        intro db keys kept
        exact tidy.setComments keys kept
    | cons target rest ih =>
        intro db keys kept
        refine ih (fun other member => indexed other (List.mem_cons_of_mem _ member)) _ ?_ ?_
        · intro key stored
          unfold purgeTarget at stored
          dsimp only at stored
          have dropped : ((db.delete target.1).get? key).isSome →
              (engine.commentsDB.get? key).isSome := by
            intro left
            rw [OrderedMap.get?_delete] at left
            split at left
            · cases left
            · exact keys key left
          split at stored
          · rename_i comment found
            by_cases own : key = encodeCommentKey target.2.1 target.2.2
            · rw [own]
              exact isSome_of_commentAt found
            · rw [OrderedMap.get?_set_of_ne _ _ own] at stored
              exact dropped stored
          · exact dropped stored
        · intro id sequence comment found free
          obtain ⟨changed, there, name, time⟩ := kept id sequence comment found free
          have isIndex := indexed target List.mem_cons_self
          have undropped : commentAt (db.delete target.1) id sequence = some changed := by
            unfold commentAt at there ⊢
            rw [OrderedMap.get?_delete_of_ne _ ?_]
            · exact there
            · intro same
              have letters : (some letterC : Option UInt8) ≠ some letterU := by decide
              rw [← same] at isIndex
              exact letters isIndex
          unfold purgeTarget
          dsimp only
          split
          · rename_i purged stored
            by_cases same : id = target.2.1 ∧ sequence = target.2.2
            · obtain ⟨rfl, rfl⟩ := same
              have equal : commentAt engine.commentsDB target.2.1 target.2.2 = some purged := stored
              rw [found] at equal
              cases equal
              refine ⟨storedComment target.2.1 target.2.2
                { comment with deletion := { comment.deletion with removed := true } }, ?_, ?_, rfl⟩
              · unfold commentAt
                rw [OrderedMap.get?_set_self, Option.bind_some,
                  decodeRFC822Comment_encodeRFC822Comment]
              · exact headerValue_of_lineFree free
            · refine ⟨changed, ?_, name, time⟩
              rw [commentAt_set_of_ne _ (fun equal => same (encodeCommentKey_inj.mp equal))]
              exact undropped
          · exact ⟨changed, undropped, name, time⟩
  exact folded engine.commentsDB (fun _ => id)
    (fun id sequence comment found _free => ⟨comment, found, rfl, rfl⟩)

theorem tidy_purgeUserPosts (tidy : engine.Tidy) (author : Bytes) (minTimestamp : Int64) :
    (engine.purgeUserPosts author minTimestamp).1.Tidy := by
  unfold purgeUserPosts
  dsimp only
  generalize (engine.metaDB.posts.entries.filter (fun entry =>
    entry.2.creatorName = author && minTimestamp ≤ entry.2.createdAt)).map Prod.fst = targets
  have records : ∀ key, ((targets.foldl (fun postsDB id =>
      postsDB.modify (encodePostKey id) markDeleted) engine.postsDB).get? key).isSome =
      (engine.postsDB.get? key).isSome := by
    intro key
    generalize engine.postsDB = db
    induction targets generalizing db with
    | nil => rfl
    | cons first rest ih =>
        rw [List.foldl_cons, ih, OrderedMap.get?_modify]
        split
        · rename_i same
          rw [same, Option.isSome_map]
        · rfl
  constructor
  · intro key stored
    rw [records] at stored
    exact tidy.posts key stored
  · exact tidy.comments
  · exact tidy.votes
  · exact tidy.history
  · intro id row
    dsimp only at row ⊢
    rw [OrderedMap.get?_deleteAll] at row
    split at row
    · cases row
    · rw [records]
      exact tidy.recorded id row

theorem Tidy.purgePostRecord (tidy : engine.Tidy) (post : Post) :
    (engine.purgePostRecord cfg post).Tidy := by
  unfold Engine.purgePostRecord
  dsimp only
  have flushed := tidy.flush
  generalize engine.flushDirtyDeltas = ready at flushed ⊢
  have without : Tidy { ready with metaDB := purgePostRows ready.metaDB post } := by
    refine flushed.of_stores rfl rfl rfl rfl ?_
    intro id row
    unfold purgePostRows at row
    dsimp only at row
    rw [OrderedMap.get?_delete] at row
    split at row
    · cases row
    · exact row
  have purged := without.purgeRecords (OrderedMap.get?_delete_self ready.metaDB.posts post.id)
  unfold removeCacheFile
  split
  · exact purged
  · split
    · exact purged.of_stores rfl rfl rfl rfl (fun _ => id)
    · exact purged

theorem tidy_purgePost (tidy : engine.Tidy) (postID : UInt64) :
    (engine.purgePost cfg postID).1.Tidy := by
  have reading := tidy_getPost cfg tidy postID
  unfold purgePost
  split
  · rename_i read
    rw [read] at reading
    exact reading
  · rename_i read
    rw [read] at reading
    exact reading.purgePostRecord _

theorem Tidy.purgeAll (tidy : engine.Tidy) {ids : List UInt64}
    (gone : ∀ id ∈ ids, engine.metaDB.posts.get? id = none) :
    (ids.foldl Engine.purgeRecords engine).Tidy := by
  induction ids generalizing engine with
  | nil => exact tidy
  | cons first rest ih =>
      refine ih (tidy.purgeRecords (gone first List.mem_cons_self)) ?_
      intro id member
      exact gone id (List.mem_cons_of_mem _ member)

theorem mem_communityPosts {metaDB : MetaDB} {community : Bytes} {id : UInt64} :
    id ∈ communityPosts metaDB community ↔
      ∃ row, metaDB.posts.get? id = some row ∧ row.community = community := by
  unfold communityPosts
  rw [List.mem_map]
  constructor
  · rintro ⟨entry, member, rfl⟩
    obtain ⟨stored, inCommunity⟩ := List.mem_filter.mp member
    exact ⟨entry.2, (OrderedMap.get?_eq_some_iff _).mpr stored, by simpa using inCommunity⟩
  · rintro ⟨row, stored, inCommunity⟩
    refine ⟨(id, row), List.mem_filter.mpr ⟨(OrderedMap.get?_eq_some_iff _).mp stored, ?_⟩, rfl⟩
    simpa using inCommunity

theorem deleteCommunityRows_gone {metaDB : MetaDB} {community : Bytes} {id : UInt64}
    (member : id ∈ communityPosts metaDB community) :
    (deleteCommunityRows metaDB community).posts.get? id = none := by
  obtain ⟨row, stored, inCommunity⟩ := mem_communityPosts.mp member
  unfold deleteCommunityRows
  dsimp only
  rw [OrderedMap.get?_keep, stored, Option.filter_some, if_neg]
  simpa using inCommunity

theorem Tidy.deleteRows (tidy : engine.Tidy) (community : Bytes) :
    Tidy { engine with metaDB := deleteCommunityRows engine.metaDB community } := by
  refine tidy.of_stores rfl rfl rfl rfl ?_
  intro id row
  unfold deleteCommunityRows at row
  dsimp only at row
  rw [OrderedMap.get?_keep] at row
  obtain ⟨kept, found⟩ := Option.isSome_iff_exists.mp row
  exact Option.isSome_iff_exists.mpr ⟨kept, (Option.filter_eq_some_iff.mp found).1⟩

theorem tidy_deleteCommunity (tidy : engine.Tidy) (community : Bytes) :
    (engine.deleteCommunity community).1.Tidy := by
  unfold deleteCommunity
  split
  · exact tidy
  · exact (tidy.flush.deleteRows community).purgeAll
      (fun _ member => deleteCommunityRows_gone member)

/-! #### Importing -/

theorem commentAt_importComment_of_ne {postID other : UInt64} {numbered : Comment × Nat}
    {sequence : UInt32}
    (different : ¬ (other = postID ∧ sequence = UInt32.ofNat (numbered.2 + 1))) :
    commentAt (importComment postID engine numbered).commentsDB other sequence =
      commentAt engine.commentsDB other sequence := by
  unfold importComment setCommentRecord
  dsimp only
  rw [commentAt_set_of_ne _ (encodeAuthorCommentKey_ne_encodeCommentKey _ _ _ _ _ _).symm,
    commentAt_set_of_ne _ (fun equal => different (encodeCommentKey_inj.mp equal))]

/-- The floors of an import are different, so each comment is held against what
was stored before. -/
theorem tidy_importComments (tidy : engine.Tidy) (id : UInt64) {comments : List Comment}
    {start : Nat} (room : start + comments.length < 0xff000000)
    (findable : ∀ numbered ∈ comments.zipIdx start,
      engine.Findable (importedComment id numbered)) :
    ((comments.zipIdx start).foldl (importComment id) engine).Tidy := by
  induction comments generalizing start engine with
  | nil => exact tidy
  | cons first rest ih =>
      rw [List.length_cons] at room
      rw [List.zipIdx_cons] at findable ⊢
      rw [List.foldl_cons]
      obtain ⟨small, named, agrees⟩ := findable (first, start) List.mem_cons_self
      have written : (importComment id engine (first, start)).Tidy :=
        tidy.writeComment small named agrees
      refine ih written (by omega) ?_
      intro numbered member
      obtain ⟨later, laterNamed, laterAgrees⟩ :=
        findable numbered (List.mem_cons_of_mem _ member)
      refine ⟨later, laterNamed, ?_⟩
      have beyond := List.le_snd_of_mem_zipIdx member
      have within := List.snd_lt_add_of_mem_zipIdx member
      have different : ¬ ((importedComment id numbered).postID = id ∧
          (importedComment id numbered).sequence = UInt32.ofNat (start + 1)) := by
        rintro ⟨_post, same⟩
        have numbers := congrArg UInt32.toNat same
        change (UInt32.ofNat (numbered.2 + 1)).toNat = _ at numbers
        rw [UInt32.toNat_ofNat', UInt32.toNat_ofNat', Nat.mod_eq_of_lt (by omega),
          Nat.mod_eq_of_lt (by omega)] at numbers
        omega
      rw [commentAt_importComment_of_ne different]
      exact laterAgrees

theorem tidy_importVotes (tidy : engine.Tidy) (id : UInt64) {votes : List VoteRecord}
    (low : ∀ record ∈ votes, record.vote = voteUp ∨ record.vote = voteDown →
      ∀ byte ∈ record.personName.head?, byte < 0xff) :
    (votes.foldl (importVote id) engine).Tidy := by
  induction votes generalizing engine with
  | nil => exact tidy
  | cons first rest ih =>
      refine ih ?_ (fun record member => low record (List.mem_cons_of_mem _ member))
      unfold importVote
      split
      · rename_i counts
        refine tidy.setVotes ?_
        intro key stored
        by_cases own : key = encodeVoteKey id first.personName
        · exact Or.inr ⟨_, _, own, low first List.mem_cons_self (by simpa using counts)⟩
        · rw [OrderedMap.get?_set_of_ne _ _ own] at stored
          exact Or.inl stored
      · exact tidy

theorem tidy_importCrossposts (tidy : engine.Tidy) (id : UInt64)
    {crossposts : List CrosspostRecord} {start : Nat}
    (room : start + crossposts.length < 0xff000000) :
    ((crossposts.zipIdx start).foldl (importCrosspost id) engine).Tidy := by
  induction crossposts generalizing start engine with
  | nil => exact tidy
  | cons first rest ih =>
      rw [List.length_cons] at room
      rw [List.zipIdx_cons, List.foldl_cons]
      refine ih ?_ (by omega)
      unfold importCrosspost
      dsimp only
      split
      · exact tidy
      · rename_i inserted
        obtain ⟨_next, changed, _bound⟩ := MetaDB.insertCrosspost_ok inserted
        refine Tidy.setCrosspostRecord ?_ ?_ _
        · refine tidy.of_stores rfl rfl rfl rfl ?_
          intro other present
          rw [changed] at present
          exact present
        · rw [UInt32.toNat_ofNat', Nat.mod_eq_of_lt (by omega)]
          omega

theorem tidy_importPost {after : Engine} {item : ImportedPostData} {id : UInt64}
    (tidy : engine.Tidy) (imported : engine.importPost cfg item = (after, .ok id))
    (findable : engine.ItemFindable id item) : after.Tidy := by
  obtain ⟨counter, metaDB, upserted, rfl⟩ := importPost_ok imported
  obtain ⟨few, comments, votes, crossposts⟩ := findable
  have rows : ∀ other, (metaDB.posts.get? other).isSome →
      (engine.metaDB.posts.get? other).isSome ∨ other = id := by
    intro other present
    obtain ⟨chosen, _choice, ⟨_found, changed⟩ | ⟨_same, _missing, _free, added⟩⟩ :=
      MetaDB.upsertPost_ok upserted
    · by_cases same : other = id
      · exact Or.inr same
      · rw [changed, OrderedMap.get?_modify_of_ne _ _ same] at present
        exact Or.inl present
    · rw [added] at present
      exact rows_putPost present
  have waiting : Tidy { engine with postSeqCounter := counter } :=
    tidy.of_stores rfl rfl rfl rfl (fun _ present => present)
  have stored := waiting.setPostRecord { item.prepared with id := id } metaDB rows
  have commented := tidy_importComments stored id (by rw [Nat.zero_add]; exact few) comments
  exact tidy_importCrossposts (tidy_importVotes commented id votes) id
    (by rw [Nat.zero_add]; exact crossposts)

theorem tidy_importPosts {after : Engine} {batch : List ImportedPostData}
    {entries : List (UInt64 × ImportedPostData)} (tidy : engine.Tidy)
    (imported : engine.importPosts cfg batch = (after, .ok entries))
    (findable : engine.BatchFindable cfg batch) : after.Tidy := by
  induction batch generalizing engine entries with
  | nil =>
      cases imported
      exact tidy
  | cons item rest ih =>
      unfold importPosts at imported
      unfold BatchFindable at findable
      cases first : engine.importPost cfg item with
      | mk reached result =>
          rw [first] at imported findable
          cases result with
          | error failure => cases imported
          | ok id =>
              dsimp only at imported findable
              cases later : reached.importPosts cfg rest with
              | mk final result =>
                  rw [later] at imported
                  cases result with
                  | error failure => cases imported
                  | ok others =>
                      cases imported
                      exact ih (tidy_importPost tidy first findable.1) later findable.2

theorem tidy_importPostBatch (tidy : engine.Tidy) (batch : List ImportedPostData)
    (findable : engine.BatchFindable cfg batch) : (engine.importPostBatch cfg batch).1.Tidy := by
  unfold importPostBatch
  split
  · exact tidy.of_stores rfl rfl rfl rfl (fun _ => id)
  · rename_i reached entries imported
    exact (tidy_importPosts tidy imported findable).setSequences _

theorem tidy_rebuild (tidy : engine.Tidy) : engine.rebuildSQLiteFromPebble.1.Tidy := by
  rcases rebuild_cases engine with ⟨failure, failed⟩ | ⟨metaDB, counts, rebuilt⟩
  · rw [failed]
    exact tidy
  · have rows := rebuild_posts rebuilt
    rw [rebuilt]
    refine ⟨tidy.posts, tidy.comments, tidy.votes, tidy.history, ?_⟩
    intro id row
    rw [rows id, Option.isSome_map] at row
    exact row

theorem tidy_step (tidy : engine.Tidy) (op : Op) (findable : engine.StaysFindable cfg op) :
    (engine.after cfg op).Tidy := by
  cases op with
  | createPost now post => exact tidy_createPost tidy now post findable
  | getPost postID => exact tidy_getPost cfg tidy postID
  | getPostByCommunityFile community postFile =>
      change (engine.getPostByCommunityFile cfg community postFile).1.Tidy
      unfold getPostByCommunityFile
      split
      · exact tidy
      · exact tidy_getPost cfg tidy _
  | setPostContent postID content =>
      exact tidy.of_recordFrame (setPostContent_frame cfg engine postID content)
  | setPostMeta community postFile filemode money =>
      exact tidy_setPostMeta tidy community postFile filemode money
  | renderFullPostText postID asBig5 =>
      exact tidy.of_recordFrame (renderFullPostText_frame cfg engine postID asBig5)
  | updatePost now edit =>
      have kept := tidy_editsPost tidy (editsPost_updatePost cfg engine now edit)
      exact kept (fun _ _ before => (before.putRecord _).updateRow _ _) findable
  | updatePostTitle now postID newTitle editorName editorID =>
      have kept := tidy_editsPost tidy
        (editsPost_updatePostTitle cfg engine now postID newTitle editorName editorID)
      exact kept (fun _ _ before => before.updateRow _ _) findable
  | deletePost now postID deleterName deleterID reason =>
      have kept := tidy_editsPost tidy
        (editsPost_deletePost cfg engine now postID deleterName deleterID reason)
      exact kept (fun _ _ before => (before.putRecord _).setRowDeletion _) findable
  | undeletePost now postID => exact tidy_undeletePost tidy now postID
  | addComment now comment => exact tidy_addComment tidy now comment findable
  | updateComment now postID sequence newContent editorName editorID =>
      have kept := tidy_editsComment tidy
        (editsComment_updateComment cfg engine now postID sequence newContent editorName editorID)
      exact kept (fun _ => ⟨rfl, rfl, rfl, rfl⟩) (fun _ before => tidy_touchPost before now postID) findable
  | deleteComment now postID sequence deleterName deleterID reason =>
      have kept := tidy_editsComment tidy
        (editsComment_deleteComment cfg engine now postID sequence deleterName deleterID reason)
      exact kept (fun _ => ⟨rfl, rfl, rfl, rfl⟩)
        (fun _ before => before.of_recordFrame (rerenderPost_frame cfg _ _)) findable
  | undeleteComment postID sequence => exact tidy_undeleteComment tidy postID sequence
  | votePost now postID personName personID newVote createdAt ip =>
      exact tidy_votePost tidy now postID personName personID newVote createdAt ip findable
  | resetVotes postID => exact tidy_resetVotes tidy postID
  | addCrosspost now call => exact tidy_addCrosspost tidy now call findable
  | purgeUserComments author minTimestamp =>
      exact tidy_purgeUserComments tidy author minTimestamp
  | purgeUserPosts author minTimestamp => exact tidy_purgeUserPosts tidy author minTimestamp
  | purgePost postID => exact tidy_purgePost tidy postID
  | deleteCommunity community => exact tidy_deleteCommunity tidy community
  | importPostBatch batch => exact tidy_importPostBatch tidy batch findable
  | flushDirtyDeltas => exact tidy.flush
  | rebuildSQLiteFromPebble => exact tidy_rebuild tidy
  | restart => exact tidy.flush.of_stores rfl rfl rfl rfl (fun _ => id)

theorem tidy_run {ops : List Op}
    (findable : StepsMeet (after cfg) (StaysFindable cfg) {} ops) :
    (runOps cfg {} ops).Tidy := by
  refine invariant_run ?_ tidy_start findable
  intro engine op tidy meets
  exact tidy_step tidy op meets

end Steps

/-! ### What is left after a purge -/

def droppedWithAll (ids : List UInt64) (community : Bytes) (row : CrosspostRow) : Bool :=
  row.targetCommunity = community || ids.contains row.sourcePostID

structure PurgedAll (ids : List UInt64) (before after : Engine) : Prop where
  gone : ∀ id ∈ ids, ∀ key, KeyOf id key →
    after.postsDB.get? key = none ∧ after.commentsDB.get? key = none ∧
      after.votesDB.get? key = none ∧ after.historyDB.get? key = none
  kept : ∀ key, (∀ id ∈ ids, ¬ KeyOf id key) →
    after.postsDB.get? key = before.postsDB.get? key ∧
      after.commentsDB.get? key = before.commentsDB.get? key ∧
      after.votesDB.get? key = before.votesDB.get? key ∧
      after.historyDB.get? key = before.historyDB.get? key
  sequences : ∀ id, after.postSeqs.get? id = if id ∈ ids then none else before.postSeqs.get? id

theorem isNone_purgeRecords {engine : Engine} {id : UInt64} {key : Bytes}
    (none : engine.postsDB.get? key = none ∧ engine.commentsDB.get? key = none ∧
      engine.votesDB.get? key = none ∧ engine.historyDB.get? key = none) :
    (engine.purgeRecords id).postsDB.get? key = .none ∧
      (engine.purgeRecords id).commentsDB.get? key = .none ∧
      (engine.purgeRecords id).votesDB.get? key = .none ∧
      (engine.purgeRecords id).historyDB.get? key = .none := by
  unfold purgeRecords
  simp only [OrderedMap.get?_deleteAll, none, ite_self, and_self]

theorem purgedAll_of_tidy {engine : Engine} (tidy : engine.Tidy) {ids : List UInt64}
    (rows : ∀ id ∈ ids, engine.metaDB.posts.get? id = none) :
    PurgedAll ids engine (ids.foldl purgeRecords engine) := by
  induction ids using List.reverseRecOn with
  | nil =>
      exact
        { gone := fun id member => absurd member List.not_mem_nil
          kept := fun key _others => ⟨rfl, rfl, rfl, rfl⟩
          sequences := fun id => rfl }
  | append_singleton front last ih =>
      have earlier := ih (fun id member => rows id (List.mem_append_left _ member))
      have tidied := tidy.purgeAll (fun id member => rows id (List.mem_append_left [last] member))
      rw [List.foldl_append, List.foldl_cons, List.foldl_nil]
      generalize front.foldl purgeRecords engine = reached at earlier tidied ⊢
      constructor
      · intro id member key own
        rcases List.mem_append.mp member with early | final
        · exact isNone_purgeRecords (earlier.gone id early key own)
        · rw [List.mem_singleton.mp final] at own
          exact purgeRecords_gone tidied own
      · intro key others
        have frontKept := earlier.kept key
          (fun id member => others id (List.mem_append_left _ member))
        have lastKept := @purgeRecords_kept reached last key
          (others last (List.mem_append_right _ List.mem_cons_self))
        exact ⟨lastKept.1.trans frontKept.1, lastKept.2.1.trans frontKept.2.1,
          lastKept.2.2.1.trans frontKept.2.2.1, lastKept.2.2.2.trans frontKept.2.2.2⟩
      · intro id
        unfold purgeRecords
        rw [OrderedMap.get?_delete, earlier.sequences]
        by_cases final : id = last
        · rw [if_pos final, if_pos (by simp [final])]
        · rw [if_neg final]
          simp [final]

theorem metaDB_purgeAll (engine : Engine) (ids : List UInt64) :
    (ids.foldl purgeRecords engine).metaDB = engine.metaDB := by
  induction ids generalizing engine with
  | nil => rfl
  | cons first rest ih => exact ih (engine.purgeRecords first)

theorem pending_purgeAll {engine : Engine} (flushed : ∀ id, engine.dirtyDeltas.get? id = none)
    (ids : List UInt64) (id : UInt64) :
    (ids.foldl purgeRecords engine).dirtyDeltas.get? id = none := by
  induction ids generalizing engine with
  | nil => exact flushed id
  | cons first rest ih =>
      refine ih ?_
      intro other
      change (engine.dirtyDeltas.delete first).get? other = none
      rw [OrderedMap.get?_delete, flushed, ite_self]

theorem rebuilt_crosspost_undropped {before after rebuilt : Engine} {counts : Nat × Nat}
    {ids : List UInt64} {dropped : CrosspostRow → Bool} (tidy : after.Tidy)
    (purged : PurgedAll ids before after)
    (uncited : ¬ before.CitedElsewhere (fun id => id ∈ ids) dropped)
    (restored : after.rebuildSQLiteFromPebble = (rebuilt, .ok counts)) {rowID : UInt64}
    {row : CrosspostRow} (stored : rebuilt.metaDB.crossposts.get? rowID = some row) :
    dropped row = false := by
  have listed : row ∈ rebuilt.metaDB.crossposts.entries.map Prod.snd :=
    List.mem_map_of_mem ((OrderedMap.get?_eq_some_iff _).mp stored)
  rw [rebuild_crossposts restored] at listed
  obtain ⟨entry, member, rfl⟩ := List.mem_map.mp listed
  obtain ⟨present, crosspost⟩ := List.mem_filter.mp member
  have found : after.postsDB.get? entry.1 = some entry.2 :=
    (OrderedMap.get?_eq_some_iff _).mpr present
  rcases tidy.posts entry.1 (by rw [found]; rfl) with ⟨id, own⟩ | ⟨source, sequence, own, _small⟩
  · rw [own, encodePostKey_head] at crosspost
    exact absurd crosspost (by decide)
  · rw [own] at found
    have other : source ∉ ids := by
      intro member
      rw [(purged.gone source member _ (keyOf_crosspostKey.mpr rfl)).1] at found
      cases found
    have kept := purged.kept (encodeCrosspostKey source sequence) (by
      intro id member about
      rw [keyOf_crosspostKey.mp about] at member
      exact other member)
    rw [kept.1] at found
    by_contra drops
    exact uncited ⟨source, sequence, entry.2, found, other, by simpa using drops⟩

theorem gone_of_purgedAll {before after : Engine} {ids : List UInt64} {id : UInt64}
    {community postFile : Bytes} {dropped : CrosspostRow → Bool} (tidy : after.Tidy)
    (purged : PurgedAll ids before after) (member : id ∈ ids)
    (uncited : ¬ before.CitedElsewhere (fun id => id ∈ ids) dropped)
    (mentions : ∀ row, dropped row = false → droppedWith id community postFile row = false)
    (row : after.metaDB.posts.get? id = none)
    (crossposts : ∀ rowID row, after.metaDB.crossposts.get? rowID = some row →
      dropped row = false) (pending : after.dirtyDeltas.get? id = none) :
    after.Gone id community postFile ∧
      after.rebuildSQLiteFromPebble.1.Gone id community postFile := by
  have unmentioned : ∀ row, dropped row = false → row.sourcePostID ≠ id ∧
      ¬ (row.targetCommunity = community ∧ row.targetPostFile = postFile) := by
    intro row undropped
    have parts := mentions row undropped
    unfold droppedWith at parts
    simpa using parts
  have sequence : after.postSeqs.get? id = none := by
    rw [purged.sequences, if_pos member]
  have gone : after.Gone id community postFile :=
    { keys := purged.gone id member
      row := row
      crossposts := fun rowID row stored => unmentioned row (crossposts rowID row stored)
      sequence := sequence
      pending := pending }
  refine ⟨gone, ?_⟩
  rcases rebuild_cases after with ⟨failure, failed⟩ | ⟨metaDB, counts, rebuilt⟩
  · rw [failed]
    exact gone
  · have rows := rebuild_posts rebuilt id
    rw [(purged.gone id member _ (keyOf_postKey.mpr rfl)).1] at rows
    have undropped : ∀ rowID row, metaDB.crossposts.get? rowID = some row → dropped row = false :=
      fun rowID row stored => rebuilt_crosspost_undropped tidy purged uncited rebuilt stored
    rw [rebuilt]
    exact
      { keys := purged.gone id member
        row := rows
        crossposts := fun rowID row stored => unmentioned row (undropped rowID row stored)
        sequence := sequence
        pending := pending }

/-! ### Purging in a run -/

def purgedWith (engine : Engine) (ids : List UInt64) (metaDB : MetaDB)
    (files : OrderedMap Bytes Bytes) : Engine :=
  { ids.foldl purgeRecords { engine.flushDirtyDeltas with metaDB := metaDB } with
    files := files }

theorem purge_of_tidy {engine : Engine} (tidy : engine.Tidy) (ids : List UInt64)
    (metaDB : MetaDB) (files : OrderedMap Bytes Bytes) (dropped : CrosspostRow → Bool)
    (rowsGone : ∀ id ∈ ids, metaDB.posts.get? id = none)
    (rowsKept : ∀ id, id ∉ ids →
      metaDB.posts.get? id = engine.flushDirtyDeltas.metaDB.posts.get? id)
    (crossposts : ∀ rowID, metaDB.crossposts.get? rowID =
      (engine.metaDB.crossposts.get? rowID).filter (fun row => !dropped row))
    (uncited : ¬ engine.CitedElsewhere (fun id => id ∈ ids) dropped) :
    (∀ id ∈ ids, ∀ community postFile,
      (∀ row, dropped row = false → droppedWith id community postFile row = false) →
      (engine.purgedWith ids metaDB files).Gone id community postFile ∧
        (engine.purgedWith ids metaDB files).rebuildSQLiteFromPebble.1.Gone id community
          postFile) ∧
      OthersKept engine (engine.purgedWith ids metaDB files) (fun id => id ∈ ids) dropped := by
  generalize purging : engine.purgedWith ids metaDB files = purged
  have ready : Tidy { engine.flushDirtyDeltas with metaDB := metaDB } := by
    refine tidy.flush.of_stores rfl rfl rfl rfl ?_
    intro id present
    by_cases member : id ∈ ids
    · rw [rowsGone id member] at present
      cases present
    · rw [← rowsKept id member]
      exact present
  have purgedAll := purgedAll_of_tidy ready rowsGone
  have purgedMeta : purged.metaDB = metaDB := by
    rw [← purging]
    exact metaDB_purgeAll _ ids
  have purgedTidy : purged.Tidy := by
    rw [← purging]
    exact (ready.purgeAll rowsGone).of_stores rfl rfl rfl rfl (fun _ => id)
  have purgedFrom : PurgedAll ids engine purged := by
    rw [← purging]
    exact ⟨purgedAll.gone, purgedAll.kept, purgedAll.sequences⟩
  have flushed : ∀ id, purged.dirtyDeltas.get? id = none := by
    intro id
    rw [← purging]
    exact pending_purgeAll (fun _ => rfl) ids id
  constructor
  · intro id member community postFile mentions
    refine gone_of_purgedAll purgedTidy purgedFrom member uncited mentions ?_ ?_ (flushed id)
    · rw [purgedMeta]
      exact rowsGone id member
    · intro rowID row stored
      rw [purgedMeta, crossposts] at stored
      simpa using (Option.filter_eq_some_iff.mp stored).2
  · exact
      { keys := fun key others => purgedFrom.kept key others
        rows := fun id other => by
          rw [purgedMeta]
          exact rowsKept id other
        crossposts := fun rowID => by
          rw [purgedMeta]
          exact crossposts rowID
        sequences := fun id other => by
          rw [purgedFrom.sequences, if_neg other]
        flushed := flushed }

theorem purgePost_of_tidy (cfg : Config) {engine : Engine} (tidy : engine.Tidy) {id : UInt64}
    {row : PostRow} (stored : engine.metaDB.posts.get? id = some row)
    (uncited : ¬ engine.CitedElsewhere (fun other => other ∈ [id])
      (droppedWith id row.community row.postFile)) :
    ∃ purged, engine.purgePost cfg id = (purged, .ok ()) ∧
      purged.Gone id row.community row.postFile ∧
      purged.rebuildSQLiteFromPebble.1.Gone id row.community row.postFile ∧
      OthersKept engine purged (fun other => other ∈ [id])
        (droppedWith id row.community row.postFile) := by
  obtain ⟨value, record⟩ := Option.isSome_iff_exists.mp
    (tidy.recorded id (by rw [stored]; rfl))
  have read := @getPost_of_record cfg engine id row value stored record
  generalize reading : withRecord (postOfRow id row) value = post at read
  have postID : post.id = id := getPost_id read
  have community : post.community = row.community := by
    rw [← reading, withRecord_eq]
    rfl
  have postFile : post.postFile = row.postFile := by
    rw [← reading, withRecord_eq]
    rfl
  have after : ∃ files, engine.purgePost cfg id =
      (engine.purgedWith [id] (purgePostRows engine.flushDirtyDeltas.metaDB post) files,
        .ok ()) := by
    unfold purgePost
    rw [read]
    dsimp only
    unfold purgePostRecord removeCacheFile
    rw [postID]
    dsimp only
    split
    · exact ⟨_, rfl⟩
    · split
      · exact ⟨_, rfl⟩
      · exact ⟨_, rfl⟩
  obtain ⟨files, purging⟩ := after
  refine ⟨_, purging, ?_⟩
  have purged := purge_of_tidy tidy [id] (purgePostRows engine.flushDirtyDeltas.metaDB post) files
    (droppedWith id row.community row.postFile) ?_ ?_ ?_ uncited
  · obtain ⟨gone, others⟩ := purged
    obtain ⟨here, rebuilt⟩ := gone id List.mem_cons_self row.community row.postFile
      (fun _ undropped => undropped)
    exact ⟨here, rebuilt, others⟩
  · intro other member
    rw [List.mem_singleton.mp member, ← postID]
    exact OrderedMap.get?_delete_self _ _
  · intro other outside
    refine OrderedMap.get?_delete_of_ne _ ?_
    rw [postID]
    exact fun same => outside (List.mem_singleton.mpr same)
  · intro rowID
    rw [← community, ← postFile, ← postID]
    exact OrderedMap.get?_keep _ _ _

theorem deleteCommunity_of_tidy {engine : Engine} (tidy : engine.Tidy) {community : Bytes}
    (named : community ≠ [])
    (uncited : ¬ engine.CitedElsewhere (fun id => id ∈ communityPosts engine.metaDB community)
      (droppedWithAll (communityPosts engine.metaDB community) community)) :
    ∃ purged counts, engine.deleteCommunity community = (purged, .ok counts) ∧
      (∀ id row, engine.metaDB.posts.get? id = some row → row.community = community →
        purged.Gone id row.community row.postFile ∧
          purged.rebuildSQLiteFromPebble.1.Gone id row.community row.postFile) ∧
      OthersKept engine purged (fun id => id ∈ communityPosts engine.metaDB community)
        (droppedWithAll (communityPosts engine.metaDB community) community) := by
  have samePosts : communityPosts engine.flushDirtyDeltas.metaDB community =
      communityPosts engine.metaDB community := by
    unfold communityPosts flushDirtyDeltas OrderedMap.mapValues
    dsimp only
    rw [List.filter_map, List.map_map]
    rfl
  have deleting : ∃ files counts, engine.deleteCommunity community =
      (engine.purgedWith (communityPosts engine.metaDB community)
        (deleteCommunityRows engine.flushDirtyDeltas.metaDB community) files, .ok counts) := by
    unfold deleteCommunity purgedWith
    rw [if_neg named, ← samePosts]
    exact ⟨_, _, rfl⟩
  obtain ⟨files, counts, deleting⟩ := deleting
  refine ⟨_, counts, deleting, ?_⟩
  have purged := purge_of_tidy tidy (communityPosts engine.metaDB community)
    (deleteCommunityRows engine.flushDirtyDeltas.metaDB community) files
    (droppedWithAll (communityPosts engine.metaDB community) community) ?_ ?_ ?_ uncited
  · obtain ⟨gone, others⟩ := purged
    refine ⟨?_, others⟩
    intro id row stored inCommunity
    refine gone id (mem_communityPosts.mpr ⟨row, stored, inCommunity⟩) _ _ ?_
    intro crosspost undropped
    unfold droppedWithAll at undropped
    unfold droppedWith
    rw [Bool.or_eq_false_iff] at undropped ⊢
    refine ⟨?_, ?_⟩
    · apply decide_eq_false
      intro same
      have member := mem_communityPosts.mpr ⟨row, stored, inCommunity⟩
      rw [← same] at member
      have absent := undropped.2
      simp [member] at absent
    · rw [inCommunity, undropped.1, Bool.false_and]
  · intro id member
    rw [← samePosts] at member
    exact deleteCommunityRows_gone member
  · intro id outside
    rw [← samePosts] at outside
    unfold deleteCommunityRows
    dsimp only
    rw [OrderedMap.get?_keep]
    cases found : engine.flushDirtyDeltas.metaDB.posts.get? id with
    | none => rfl
    | some row =>
        rw [Option.filter_some, if_pos]
        have elsewhere : row.community ≠ community := fun same =>
          outside (mem_communityPosts.mpr ⟨row, found, same⟩)
        simpa using elsewhere
  · intro rowID
    unfold deleteCommunityRows
    dsimp only
    rw [OrderedMap.get?_keep, samePosts]
    rfl

/-- In every run whose steps write only what the scans of a purge find, a purged
post leaves no trace, and nothing else is touched. -/
theorem purge_leaves_no_trace {cfg : Config} {ops : List Op}
    (findable : StepsMeet (after cfg) (StaysFindable cfg) {} ops) :
    let engine := runOps cfg {} ops
    (∀ id row, engine.metaDB.posts.get? id = some row →
      ¬ engine.CitedElsewhere (fun other => other ∈ [id])
        (droppedWith id row.community row.postFile) →
      ∃ purged, engine.purgePost cfg id = (purged, .ok ()) ∧
        purged.Gone id row.community row.postFile ∧
        purged.rebuildSQLiteFromPebble.1.Gone id row.community row.postFile ∧
        OthersKept engine purged (fun other => other ∈ [id])
          (droppedWith id row.community row.postFile)) ∧
    ∀ community, community ≠ [] →
      ¬ engine.CitedElsewhere (fun id => id ∈ communityPosts engine.metaDB community)
        (droppedWithAll (communityPosts engine.metaDB community) community) →
      ∃ purged counts, engine.deleteCommunity community = (purged, .ok counts) ∧
        (∀ id row, engine.metaDB.posts.get? id = some row → row.community = community →
          purged.Gone id row.community row.postFile ∧
            purged.rebuildSQLiteFromPebble.1.Gone id row.community row.postFile) ∧
        OthersKept engine purged (fun id => id ∈ communityPosts engine.metaDB community)
          (droppedWithAll (communityPosts engine.metaDB community) community) := by
  intro engine
  have tidy : engine.Tidy := tidy_run findable
  exact ⟨fun id row stored uncited => purgePost_of_tidy cfg tidy stored uncited,
    fun community named uncited => deleteCommunity_of_tidy tidy named uncited⟩

def votedOps (voter : Bytes) : List Op :=
  [.createPost 100 firstPost, .votePost 100 1 voter 7 voteUp 0 []]

theorem votedOps_purged :
    ∃ purged, (runOps {} {} (votedOps (utf8 "bob"))).purgePost {} 1 = (purged, .ok ()) ∧
      purged.Gone 1 (utf8 "Test") (utf8 "M.1.A") ∧
      purged.rebuildSQLiteFromPebble.1.Gone 1 (utf8 "Test") (utf8 "M.1.A") := by
  have findable : StepsMeet (after {}) (StaysFindable {}) {} (votedOps (utf8 "bob")) :=
    ⟨fun short => absurd short (by decide +kernel), fun _vote => by decide +kernel, trivial⟩
  have names : ((runOps {} {} (votedOps (utf8 "bob"))).metaDB.posts.get? 1).map (fun row =>
      (row.community, row.postFile)) = some (utf8 "Test", utf8 "M.1.A") := by decide +kernel
  obtain ⟨row, stored, named⟩ := Option.map_eq_some_iff.mp names
  obtain ⟨community, postFile⟩ := Prod.mk.inj named
  have keys : (runOps {} {} (votedOps (utf8 "bob"))).postsDB.entries.map Prod.fst =
      [encodePostKey 1] := by decide +kernel
  obtain ⟨purged, done, gone, rebuilt, _others⟩ :=
    (purge_leaves_no_trace findable).1 1 row stored (by
      rintro ⟨source, sequence, value, found, _other, _drops⟩
      have listed := List.mem_map_of_mem (f := Prod.fst)
        ((OrderedMap.get?_eq_some_iff _).mp found)
      rw [keys] at listed
      exact encodeCrosspostKey_ne_encodePostKey _ _ _ (List.mem_singleton.mp listed))
  rw [community, postFile] at gone rebuilt
  exact ⟨purged, done, gone, rebuilt⟩

/-- The vote of a person whose name starts with 0xff stays behind. -/
theorem purge_misses_vote :
    ∃ purged, (runOps {} {} (votedOps [0xff, 98])).purgePost {} 1 = (purged, .ok ()) ∧
      (purged.votesDB.get? (encodeVoteKey 1 [0xff, 98])).isSome ∧
      ¬ purged.Gone 1 (utf8 "Test") (utf8 "M.1.A") := by
  have left : (((runOps {} {} (votedOps [0xff, 98])).purgePost {} 1).1.votesDB.get?
      (encodeVoteKey 1 [0xff, 98])).isSome := by decide +kernel
  have done : ((runOps {} {} (votedOps [0xff, 98])).purgePost {} 1).2 = .ok () := by
    decide +kernel
  generalize (runOps {} {} (votedOps [0xff, 98])).purgePost {} 1 = outcome at left done ⊢
  obtain ⟨purged, result⟩ := outcome
  refine ⟨purged, by rw [← done], left, ?_⟩
  intro gone
  rw [(gone.keys _ (keyOf_voteKey.mpr rfl)).2.2.1] at left
  cases left

end Engine

end Pttbbs.PostSvc
