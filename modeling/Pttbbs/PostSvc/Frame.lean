/-
What reading and rendering a post leave alone.

Both may complete the Pebble record of the post from its board file, and
rendering writes that file.  Everything else stays as it was, and so do the
records of other posts.
-/

import Pttbbs.PostSvc.Editing

namespace Pttbbs.PostSvc

open Pttbbs.Lib

theorem editTime_gt {now modified : Int64} (notMax : modified ≠ Int64.maxValue) :
    modified < editTime now modified := by
  unfold editTime
  split
  · exact int64_lt_add_one notMax
  · rename_i late
    exact not_le.mp late

/-- The second engine differs from the first at most in the record of one post
and in board files, and has a record of that post if the first one has. -/
structure RecordFrame (postID : UInt64) (before after : Engine) : Prop where
  commentsDB : after.commentsDB = before.commentsDB
  votesDB : after.votesDB = before.votesDB
  historyDB : after.historyDB = before.historyDB
  metaDB : after.metaDB = before.metaDB
  postSeqCounter : after.postSeqCounter = before.postSeqCounter
  postSeqs : after.postSeqs = before.postSeqs
  dirtyDeltas : after.dirtyDeltas = before.dirtyDeltas
  others : ∀ key, key ≠ encodePostKey postID → after.postsDB.get? key = before.postsDB.get? key
  kept : (before.postsDB.get? (encodePostKey postID)).isSome →
    (after.postsDB.get? (encodePostKey postID)).isSome

namespace RecordFrame

theorem refl (postID : UInt64) (engine : Engine) : RecordFrame postID engine engine :=
  ⟨rfl, rfl, rfl, rfl, rfl, rfl, rfl, fun _ _ => rfl, id⟩

theorem trans {postID : UInt64} {first second third : Engine}
    (left : RecordFrame postID first second) (right : RecordFrame postID second third) :
    RecordFrame postID first third :=
  { commentsDB := right.commentsDB.trans left.commentsDB
    votesDB := right.votesDB.trans left.votesDB
    historyDB := right.historyDB.trans left.historyDB
    metaDB := right.metaDB.trans left.metaDB
    postSeqCounter := right.postSeqCounter.trans left.postSeqCounter
    postSeqs := right.postSeqs.trans left.postSeqs
    dirtyDeltas := right.dirtyDeltas.trans left.dirtyDeltas
    others := fun key different =>
      (right.others key different).trans (left.others key different)
    kept := fun present => right.kept (left.kept present) }

theorem setPostRecord (engine : Engine) {postID : UInt64} {post : Post} (same : post.id = postID) :
    RecordFrame postID engine (engine.setPostRecord post) :=
  { commentsDB := rfl
    votesDB := rfl
    historyDB := rfl
    metaDB := rfl
    postSeqCounter := rfl
    postSeqs := rfl
    dirtyDeltas := rfl
    others := fun key different =>
      OrderedMap.get?_set_of_ne _ _ (by rw [same]; exact different)
    kept := fun _ => by
      unfold Engine.setPostRecord
      rw [same, OrderedMap.get?_set_self]
      rfl }

theorem files (postID : UInt64) (engine : Engine) (files : OrderedMap Bytes Bytes) :
    RecordFrame postID engine { engine with files := files } :=
  ⟨rfl, rfl, rfl, rfl, rfl, rfl, rfl, fun _ _ => rfl, id⟩

end RecordFrame

namespace Engine

/-! ### Reading -/

theorem withRecord_eq (post : Post) (value : Bytes) :
    withRecord post value =
      { post with
        content := (decodeRFC822Post value).2
        deletion :=
          if post.deletion.deletedOrRemoved then post.deletion
          else deletionFromRFC822 (decodeRFC822Post value).1 } := by
  by_cases down : post.deletion.deletedOrRemoved = true
  · simp only [withRecord, if_pos down]
  · simp only [withRecord, if_neg down]

theorem withRecord_id (post : Post) (value : Bytes) : (withRecord post value).id = post.id := by
  rw [withRecord_eq]

theorem withRecord_modified (post : Post) (value : Bytes) :
    (withRecord post value).modified = post.modified := by
  rw [withRecord_eq]

theorem withRecord_content (post : Post) (value : Bytes) :
    (withRecord post value).content = (decodeRFC822Post value).2 := by
  rw [withRecord_eq]

/-- The post with the text of its board file, which a row without a record is
completed with. -/
def fromBoardFile (cfg : Config) (engine : Engine) (postID : UInt64) (row : PostRow) : Post :=
  { postOfRow postID row with
    content := cfg.decodeText ((engine.boardFile (postOfRow postID row)).getD []) }

theorem getPost_ok {cfg : Config} {engine after : Engine} {postID : UInt64} {post : Post}
    (read : engine.getPost cfg postID = (after, .ok post)) :
    ∃ row, engine.metaDB.posts.get? postID = some row ∧
      ((∃ value, engine.postsDB.get? (encodePostKey postID) = some value ∧ after = engine ∧
        post = withRecord (postOfRow postID row) value) ∨
      (engine.postsDB.get? (encodePostKey postID) = none ∧
        post = engine.fromBoardFile cfg postID row ∧ after = engine.setPostRecord post)) := by
  unfold getPost at read
  cases row? : engine.metaDB.posts.get? postID with
  | none =>
      rw [row?] at read
      cases read
  | some row =>
      rw [row?] at read
      refine ⟨row, rfl, ?_⟩
      cases record? : engine.postsDB.get? (encodePostKey postID) with
      | some value =>
          rw [record?] at read
          cases read
          exact Or.inl ⟨value, rfl, rfl, rfl⟩
      | none =>
          rw [record?] at read
          dsimp only at read
          split at read
          · cases read
          · cases read
            exact Or.inr ⟨rfl, rfl, rfl⟩

theorem getPost_of_record {cfg : Config} {engine : Engine} {postID : UInt64} {row : PostRow}
    {value : Bytes} (stored : engine.metaDB.posts.get? postID = some row)
    (record : engine.postsDB.get? (encodePostKey postID) = some value) :
    engine.getPost cfg postID = (engine, .ok (withRecord (postOfRow postID row) value)) := by
  unfold getPost
  rw [stored]
  dsimp only
  rw [record]

theorem getPost_id {cfg : Config} {engine after : Engine} {postID : UInt64} {post : Post}
    (read : engine.getPost cfg postID = (after, .ok post)) : post.id = postID := by
  obtain ⟨row, _found, ⟨value, _record, _same, rfl⟩ | ⟨_missing, rfl, _same⟩⟩ := getPost_ok read
  · rw [withRecord_id]
    rfl
  · rfl

theorem getPost_modified {cfg : Config} {engine after : Engine} {postID : UInt64} {post : Post}
    {row : PostRow} (read : engine.getPost cfg postID = (after, .ok post))
    (stored : engine.metaDB.posts.get? postID = some row) :
    post.modified = if row.modified = 0 then row.createdAt else row.modified := by
  obtain ⟨found, same, other⟩ := getPost_ok read
  rw [stored] at same
  cases same
  rcases other with ⟨value, _record, _same, rfl⟩ | ⟨_missing, rfl, _same⟩
  · rw [withRecord_modified]
    rfl
  · rfl

def recordContent (engine : Engine) (postID : UInt64) : Option Bytes :=
  (engine.postsDB.get? (encodePostKey postID)).map (fun value => (decodeRFC822Post value).2)

theorem recordContent_getPost {cfg : Config} {engine after : Engine} {postID : UInt64}
    {post : Post} (read : engine.getPost cfg postID = (after, .ok post)) :
    after.recordContent postID = some post.content := by
  obtain ⟨row, _found, ⟨value, record, rfl, rfl⟩ | ⟨_missing, same, rfl⟩⟩ :=
    getPost_ok read
  · unfold recordContent
    rw [record, withRecord_content]
    rfl
  · have sameID := getPost_id read
    unfold recordContent setPostRecord
    rw [sameID, OrderedMap.get?_set_self, Option.map_some, decodeRFC822Post_encodeRFC822Post]

theorem getPost_frame (cfg : Config) (engine : Engine) (postID : UInt64) :
    RecordFrame postID engine (engine.getPost cfg postID).1 := by
  unfold getPost
  split
  · exact RecordFrame.refl postID engine
  · dsimp only
    split
    · exact RecordFrame.refl postID engine
    · split
      · exact RecordFrame.refl postID engine
      · exact RecordFrame.setPostRecord engine rfl

theorem setPostContent_frame (cfg : Config) (engine : Engine) (postID : UInt64)
    (content : Bytes) : RecordFrame postID engine (engine.setPostContent cfg postID content).1 := by
  have reading := getPost_frame cfg engine postID
  unfold setPostContent
  cases read : engine.getPost cfg postID with
  | mk after result =>
      rw [read] at reading
      cases result with
      | error failure => exact reading
      | ok post =>
          have same : post.id = postID := getPost_id read
          exact reading.trans (RecordFrame.setPostRecord after same)

/-! ### Rendering -/

theorem fillContent_frame (cfg : Config) (engine : Engine) (post : Post) :
    RecordFrame post.id engine (engine.fillContent cfg post).1 := by
  unfold fillContent
  split
  · split
    · exact setPostContent_frame cfg engine post.id _
    · exact RecordFrame.refl post.id engine
  · exact RecordFrame.refl post.id engine

theorem renderFullPostText_frame (cfg : Config) (engine : Engine) (postID : UInt64)
    (asBig5 : Bool) :
    RecordFrame postID engine (engine.renderFullPostText cfg postID asBig5).1 := by
  have reading := getPost_frame cfg engine postID
  unfold renderFullPostText
  cases read : engine.getPost cfg postID with
  | mk after result =>
      rw [read] at reading
      cases result with
      | error failure => exact reading
      | ok post =>
          have filling := fillContent_frame cfg after post
          rw [getPost_id read] at filling
          dsimp only
          split
          · exact reading
          · exact reading.trans filling

theorem writeBoardFile_frame (postID : UInt64) (engine : Engine) (post : Post) (bytes : Bytes) :
    RecordFrame postID engine (engine.writeBoardFile post bytes) := by
  unfold writeBoardFile
  split
  · exact RecordFrame.files postID engine _
  · exact RecordFrame.refl postID engine

theorem renderAndSave_frame (cfg : Config) (engine : Engine) (post : Post) :
    RecordFrame post.id engine (engine.renderAndSave cfg post) := by
  have rendering := renderFullPostText_frame cfg engine post.id cfg.isBig5
  unfold renderAndSave
  cases rendered : engine.renderFullPostText cfg post.id cfg.isBig5 with
  | mk after result =>
      rw [rendered] at rendering
      cases result with
      | error failure => exact rendering
      | ok text => exact rendering.trans (writeBoardFile_frame post.id after post text)

theorem writePostCache_frame (postID : UInt64) (cfg : Config) (engine : Engine) (post : Post) :
    RecordFrame postID engine (engine.writePostCache cfg post) := by
  unfold writePostCache
  split
  · exact RecordFrame.refl postID engine
  · exact writeBoardFile_frame postID engine post _

theorem appendCache_frame (cfg : Config) (engine : Engine) (post : Post) (text : Bytes) :
    RecordFrame post.id engine (engine.appendCache cfg post text) := by
  unfold appendCache
  split
  · exact RecordFrame.refl post.id engine
  · split
    · exact renderAndSave_frame cfg engine post
    · exact RecordFrame.files post.id engine _

theorem appendCommentCache_frame (cfg : Config) (engine : Engine) (comment : Comment) :
    RecordFrame comment.postID engine (engine.appendCommentCache cfg comment) := by
  have reading := getPost_frame cfg engine comment.postID
  unfold appendCommentCache
  cases read : engine.getPost cfg comment.postID with
  | mk after result =>
      rw [read] at reading
      cases result with
      | error failure => exact reading
      | ok post =>
          have appending := appendCache_frame cfg after post (formatCommentBlock cfg comment)
          rw [getPost_id read] at appending
          exact reading.trans appending

theorem appendMergedCommentCache_frame (cfg : Config) (engine : Engine) (postID : UInt64)
    (content : Bytes) :
    RecordFrame postID engine (engine.appendMergedCommentCache cfg postID content) := by
  have reading := getPost_frame cfg engine postID
  unfold appendMergedCommentCache
  cases read : engine.getPost cfg postID with
  | mk after result =>
      rw [read] at reading
      cases result with
      | error failure => exact reading
      | ok post =>
          have appending := appendCache_frame cfg after post (formatMergedCommentLines content)
          rw [getPost_id read] at appending
          exact reading.trans appending

theorem rerenderPost_frame (cfg : Config) (engine : Engine) (postID : UInt64) :
    RecordFrame postID engine (engine.rerenderPost cfg postID) := by
  have reading := getPost_frame cfg engine postID
  unfold rerenderPost
  cases read : engine.getPost cfg postID with
  | mk after result =>
      rw [read] at reading
      cases result with
      | error failure => exact reading
      | ok post =>
          have rendering := renderAndSave_frame cfg after post
          rw [getPost_id read] at rendering
          exact reading.trans rendering

/-! ### Reading a comment -/

theorem readComment_ok {engine : Engine} {postID : UInt64} {sequence : UInt32}
    {comment : Comment} (read : engine.readComment postID sequence = .ok comment) :
    engine.getComment postID sequence = some comment := by
  unfold readComment at read
  unfold getComment
  split at read
  · cases read
  · rename_i value stored
    split at read
    · cases read
    · rename_i found decoded
      cases read
      rw [stored, Option.bind_some, decoded]

theorem getComment_ids {engine : Engine} {postID : UInt64} {sequence : UInt32}
    {comment : Comment} (found : engine.getComment postID sequence = some comment) :
    comment.postID = postID ∧ comment.sequence = sequence := by
  obtain ⟨value, _stored, decoded⟩ := Option.bind_eq_some_iff.mp found
  obtain ⟨record, _read, rfl⟩ := Option.map_eq_some_iff.mp decoded
  exact ⟨rfl, rfl⟩

/-! ### Adding a comment -/

def lastSequence (engine : Engine) (postID : UInt64) : UInt32 :=
  (engine.postSeqs.get? postID).getD (engine.lookupMaxSequence postID)

/-- Under the lock a call either merges into the comment on the last floor, or
counts up and opens the next floor. -/
theorem planComment_cases (cfg : Config) (engine : Engine) (comment : Comment) :
    let last := engine.lastSequence comment.postID
    let added := { comment with
      content := truncateCommentLines comment.content maxCommentLines }
    (∃ previous, engine.getComment comment.postID last = some previous ∧
      engine.planComment cfg comment =
        ({ engine with postSeqs := engine.postSeqs.set comment.postID last },
          .merge previous added)) ∨
      engine.planComment cfg comment =
        ({ engine with postSeqs := engine.postSeqs.set comment.postID (last + 1) },
          .append { added with sequence := last + 1 }) := by
  unfold planComment lastSequence
  dsimp only
  split
  · rename_i stored found
    obtain ⟨previous, _merges⟩ := Option.filter_eq_some_iff.mp found
    split at previous
    · exact Or.inl ⟨stored, previous, rfl⟩
    · cases previous
  · exact Or.inr rfl

theorem planComment_frame (cfg : Config) (engine : Engine) (comment : Comment) :
    (∃ postSeqs, (engine.planComment cfg comment).1 = { engine with postSeqs := postSeqs }) ∧
      (engine.planComment cfg comment).2.added.postID = comment.postID ∧
      (engine.planComment cfg comment).2.record.postID = comment.postID := by
  have plan := planComment_cases cfg engine comment
  dsimp only at plan
  rcases plan with ⟨previous, found, planned⟩ | planned
  · rw [planned]
    exact ⟨⟨_, rfl⟩, rfl, (getComment_ids found).1⟩
  · rw [planned]
    exact ⟨⟨_, rfl⟩, rfl, rfl⟩

end Engine

end Pttbbs.PostSvc
