/-
The ids a shard gives to its posts.

A shard counts in memory and takes every id that is its own number modulo the
number of shards.  The ids given out so far are kept beside the state of a run.
They stay below the counter, and everything stored about a post is under one of
them, as long as a restart does not set the counter back.
-/

import Mathlib.Data.List.Dedup
import Pttbbs.PostSvc.Run
import Pttbbs.PostSvc.Tables

namespace Pttbbs.PostSvc

open Pttbbs.Lib

/-! ### Runs and the ids they give out -/

def Op.numbers : Op → Bool
  | .createPost _ _ => true
  | .importPostBatch _ => true
  | .purgePost _ => true
  | .purgeUserPosts _ _ => true
  | .deleteCommunity _ => true
  | .rebuildSQLiteFromPebble => true
  | .restart => true
  | _ => false

def returnedIDs : Except EngineError Reply → List UInt64
  | .ok (.post post) => [post.id]
  | .ok (.ids ids) => ids
  | _ => []

namespace Engine

def newIDs (cfg : Config) (engine : Engine) (op : Op) : List UInt64 :=
  (returnedIDs (engine.step cfg op).2).dedup.filter (fun id =>
    (engine.metaDB.posts.get? id).isNone && ((engine.after cfg op).metaDB.posts.get? id).isSome)

end Engine

structure Numbering where
  engine : Engine := {}
  assigned : List UInt64 := []

namespace Numbering

def step (cfg : Config) (state : Numbering) (op : Op) : Numbering :=
  { engine := state.engine.after cfg op
    assigned := state.assigned ++ state.engine.newIDs cfg op }

def Room (cfg : Config) (engine : Engine) (more : Nat) : Prop :=
  (engine.postSeqCounter.toNat + more) * cfg.numShards.toNat + cfg.shardID.toNat < 2 ^ 64

def demotes (cfg : Config) (now : Int64) (post : Post) : Bool :=
  let post := Engine.preparePost now post
  post.parentID ≠ 0 && runeCount (extractNetNewContent post.content) < cfg.minReplyRunes

/-- The condition on an operation: it leaves the choice of ids to the shard, a
demoted reply names a post there was, and a restart finds a row that is not
behind the ids given out. -/
def KeepsNumbers (cfg : Config) (state : Numbering) : Op → Prop
  | .createPost now post =>
      post.id = 0 ∧ Room cfg state.engine 1 ∧
        (demotes cfg now post = true → post.parentID ∈ state.assigned)
  | .importPostBatch batch =>
      (∀ item ∈ batch, item.post.id = 0) ∧ Room cfg state.engine batch.length
  | .restart =>
      ∀ id ∈ state.assigned, id / cfg.numShards ≤
        Engine.maxPostID state.engine.metaDB / cfg.numShards
  | _ => True

end Numbering

namespace Engine

/-! ### What is stored about a post -/

def Traces (engine : Engine) (id : UInt64) : Prop :=
  (engine.metaDB.posts.get? id).isSome ∨ (engine.postsDB.get? (encodePostKey id)).isSome ∨
    HasStem engine.commentsDB (encodeCommentPrefix id) ∨
    HasStem engine.votesDB (encodeVotePrefix id) ∨
    HasStem engine.historyDB (encodePostHistoryPrefix id)

structure NoMoreTraces (before after : Engine) : Prop where
  counter : after.postSeqCounter = before.postSeqCounter
  traces : ∀ id, after.Traces id → before.Traces id

theorem commentPrefix_of_commentKey {id postID : UInt64} {sequence : UInt32}
    (stemmed : encodeCommentPrefix id <+: encodeCommentKey postID sequence) : id = postID := by
  obtain ⟨rest, same⟩ := stemmed
  unfold encodeCommentPrefix encodeCommentKey at same
  have parts := (List.append_inj (List.cons.inj same).2 (by simp)).1
  exact putUint64_inj.mp parts

theorem not_commentPrefix_authorKey (id postID : UInt64) (author : Bytes) (createdAt : Int64)
    (sequence : UInt32) :
    ¬ encodeCommentPrefix id <+: encodeAuthorCommentKey author createdAt postID sequence := by
  rintro ⟨rest, same⟩
  exact absurd (List.cons.inj same).1 (by decide)

theorem votePrefix_of_voteKey {id postID : UInt64} {user : Bytes}
    (stemmed : encodeVotePrefix id <+: encodeVoteKey postID user) : id = postID := by
  obtain ⟨rest, same⟩ := stemmed
  unfold encodeVotePrefix encodeVoteKey at same
  have parts := (List.append_inj (List.cons.inj same).2 (by simp)).1
  exact putUint64_inj.mp parts

theorem traces_recordFrame {before after : Engine} {postID id : UInt64}
    (frame : RecordFrame postID before after) (traced : after.Traces id) :
    before.Traces id ∨ id = postID := by
  unfold Traces at traced ⊢
  rw [frame.metaDB, frame.commentsDB, frame.votesDB, frame.historyDB] at traced
  rcases traced with row | record | rest
  · exact Or.inl (Or.inl row)
  · by_cases same : id = postID
    · exact Or.inr same
    · rw [frame.others _ (fun equal => same (encodePostKey_inj.mp equal))] at record
      exact Or.inl (Or.inr (Or.inl record))
  · exact Or.inl (Or.inr (Or.inr rest))

theorem traces_setCommentRecord {engine : Engine} {comment : Comment} {id : UInt64}
    (traced : (engine.setCommentRecord comment).Traces id) :
    engine.Traces id ∨ id = comment.postID := by
  rcases traced with row | record | stored | rest
  · exact Or.inl (Or.inl row)
  · exact Or.inl (Or.inr (Or.inl record))
  · rcases stored.of_set with old | new
    · exact Or.inl (Or.inr (Or.inr (Or.inl old)))
    · exact Or.inr (commentPrefix_of_commentKey new)
  · exact Or.inl (Or.inr (Or.inr (Or.inr rest)))

theorem traces_authorIndex {engine : Engine} {author : Bytes} {createdAt : Int64}
    {postID id : UInt64} {sequence : UInt32}
    (traced : Traces
      { engine with
        commentsDB := engine.commentsDB.set
          (encodeAuthorCommentKey author createdAt postID sequence) [] } id) :
    engine.Traces id := by
  rcases traced with row | record | stored | rest
  · exact Or.inl row
  · exact Or.inr (Or.inl record)
  · rcases stored.of_set with old | new
    · exact Or.inr (Or.inr (Or.inl old))
    · exact absurd new (not_commentPrefix_authorKey _ _ _ _ _)
  · exact Or.inr (Or.inr (Or.inr rest))

theorem traces_finishComment (cfg : Config) {engine : Engine} {plan : CommentPlan} {id : UInt64}
    (traced : (engine.finishComment cfg plan).1.Traces id) :
    engine.Traces id ∨ id = plan.added.postID := by
  cases plan with
  | merge previous added =>
      exact traces_recordFrame (appendMergedCommentCache_frame cfg engine _ _) traced
  | append added =>
      rcases traces_recordFrame (appendCommentCache_frame cfg _ added) traced with old | same
      · exact Or.inl (traces_authorIndex old)
      · exact Or.inr same

theorem traces_addComment (cfg : Config) (engine : Engine) (now : Int64) (comment : Comment)
    {id : UInt64} (traced : (engine.addComment cfg now comment).1.Traces id) :
    engine.Traces id ∨ id = comment.postID := by
  unfold addComment at traced
  dsimp only at traced
  generalize timed : { comment with
    createdAt := if comment.createdAt = 0 then now else comment.createdAt } = stamped at traced
  have stampedID : stamped.postID = comment.postID := by rw [← timed]
  obtain ⟨⟨postSeqs, planned⟩, addedID, recordID⟩ := planComment_frame cfg engine stamped
  rw [planned] at traced
  rw [stampedID] at addedID recordID
  rcases traces_finishComment cfg traced with written | same
  · rcases traces_setCommentRecord written with old | same
    · exact Or.inl old
    · exact Or.inr (same.trans recordID)
  · exact Or.inr (same.trans addedID)

theorem addComment_posts (cfg : Config) (engine : Engine) (now : Int64) (comment : Comment) :
    (engine.addComment cfg now comment).1.postSeqCounter = engine.postSeqCounter ∧
      (engine.addComment cfg now comment).1.metaDB = engine.metaDB := by
  unfold addComment
  dsimp only
  generalize timed : { comment with
    createdAt := if comment.createdAt = 0 then now else comment.createdAt } = stamped
  obtain ⟨⟨postSeqs, planned⟩, _addedID, _recordID⟩ := planComment_frame cfg engine stamped
  rw [planned]
  generalize (engine.planComment cfg stamped).2 = plan
  cases plan with
  | merge previous added =>
      have frame := appendMergedCommentCache_frame cfg
      exact ⟨(frame _ _ _).postSeqCounter, (frame _ _ _).metaDB⟩
  | append added =>
      have frame := appendCommentCache_frame cfg
      exact ⟨(frame _ added).postSeqCounter, (frame _ added).metaDB⟩

/-! ### Giving out ids -/

/-- A call that returned these ids: each belongs to a row there was or is the next
of the shard, they have rows after it, and nothing is stored about other posts
than before and these. -/
structure GivesOut (cfg : Config) (before after : Engine) (ids : List UInt64) : Prop where
  counter : before.postSeqCounter.toNat ≤ after.postSeqCounter.toNat
  bound : after.postSeqCounter.toNat ≤ before.postSeqCounter.toNat + ids.length
  chosen : ∀ id ∈ ids, (before.metaDB.posts.get? id).isSome ∨
    ∃ sequence, before.postSeqCounter.toNat < sequence ∧
      sequence ≤ after.postSeqCounter.toNat ∧
      id.toNat = sequence * cfg.numShards.toNat + cfg.shardID.toNat
  rows : ∀ id, (after.metaDB.posts.get? id).isSome ↔
    (before.metaDB.posts.get? id).isSome ∨ id ∈ ids
  traces : ∀ id, after.Traces id → before.Traces id ∨ id ∈ ids

namespace GivesOut

variable {cfg : Config}

theorem refl (engine : Engine) : GivesOut cfg engine engine [] :=
  { counter := le_refl _
    bound := le_refl _
    chosen := fun _ member => nomatch member
    rows := fun _ => by simp
    traces := fun _ traced => Or.inl traced }

theorem trans {first second third : Engine} {left right : List UInt64}
    (here : GivesOut cfg first second left) (later : GivesOut cfg second third right) :
    GivesOut cfg first third (left ++ right) where
  counter := le_trans here.counter later.counter
  bound := by
    have one := here.bound
    have two := later.bound
    rw [List.length_append]
    omega
  chosen := by
    intro id member
    rcases List.mem_append.mp member with early | late
    · rcases here.chosen id early with row | ⟨sequence, above, below, form⟩
      · exact Or.inl row
      · exact Or.inr ⟨sequence, above, le_trans below later.counter, form⟩
    · rcases later.chosen id late with row | ⟨sequence, above, below, form⟩
      · rcases (here.rows id).mp row with old | early
        · exact Or.inl old
        · rcases here.chosen id early with row | ⟨sequence, above, below, form⟩
          · exact Or.inl row
          · exact Or.inr ⟨sequence, above, le_trans below later.counter, form⟩
      · exact Or.inr ⟨sequence, lt_of_le_of_lt here.counter above, below, form⟩
  rows := by
    intro id
    rw [later.rows, here.rows, List.mem_append, or_assoc]
  traces := by
    intro id traced
    rcases later.traces id traced with middle | late
    · rcases here.traces id middle with old | early
      · exact Or.inl old
      · exact Or.inr (List.mem_append_left _ early)
    · exact Or.inr (List.mem_append_right _ late)

end GivesOut

theorem nextShardID_toNat {cfg : Config} {engine : Engine} (sharded : 1 < cfg.numShards)
    (room : Numbering.Room cfg engine 1) :
    (engine.nextShardID cfg).1.postSeqCounter.toNat = engine.postSeqCounter.toNat + 1 ∧
      (engine.nextShardID cfg).2.toNat =
        (engine.postSeqCounter.toNat + 1) * cfg.numShards.toNat + cfg.shardID.toNat := by
  have many : 1 < cfg.numShards.toNat := UInt64.lt_iff_toNat_lt.mp sharded
  have unit : (1 : UInt64).toNat = 1 := rfl
  unfold Numbering.Room at room
  have product : engine.postSeqCounter.toNat + 1 ≤
      (engine.postSeqCounter.toNat + 1) * cfg.numShards.toNat :=
    Nat.le_mul_of_pos_right _ (by omega)
  have counted : (engine.postSeqCounter + 1).toNat = engine.postSeqCounter.toNat + 1 := by
    rw [UInt64.toNat_add, unit, Nat.mod_eq_of_lt (by omega)]
  refine ⟨counted, ?_⟩
  unfold nextShardID
  dsimp only
  rw [UInt64.toNat_add, UInt64.toNat_mul, counted, Nat.mod_eq_of_lt (by omega),
    Nat.mod_eq_of_lt (by omega)]

theorem candidateID_sharded {cfg : Config} (sharded : 1 < cfg.numShards) (engine : Engine)
    {post : Post} (free : post.id = 0) :
    engine.candidateID cfg post =
      ((engine.nextShardID cfg).1, some (engine.nextShardID cfg).2) := by
  unfold candidateID
  rw [if_neg (by rw [free]; simp), if_pos sharded]

theorem givesOut_insert {cfg : Config} (sharded : 1 < cfg.numShards) {engine after : Engine}
    (room : Numbering.Room cfg engine 1) {metaDB : MetaDB} {row : PostRow}
    (added : metaDB = engine.metaDB.putPost (engine.nextShardID cfg).2 row)
    (counter : after.postSeqCounter = (engine.nextShardID cfg).1.postSeqCounter)
    (rows : after.metaDB.posts = metaDB.posts)
    (traces : ∀ id, after.Traces id → (after.metaDB.posts.get? id).isSome ∨ engine.Traces id ∨
      id = (engine.nextShardID cfg).2) :
    GivesOut cfg engine after [(engine.nextShardID cfg).2] := by
  obtain ⟨counted, form⟩ := nextShardID_toNat sharded room
  have rowsIff : ∀ id, (after.metaDB.posts.get? id).isSome ↔
      (engine.metaDB.posts.get? id).isSome ∨ id ∈ [(engine.nextShardID cfg).2] := by
    intro id
    rw [rows, added, List.mem_singleton]
    by_cases same : id = (engine.nextShardID cfg).2
    · rw [same, MetaDB.get?_putPost_self]
      simp
    · rw [MetaDB.get?_putPost_of_ne _ _ same]
      simp [same]
  refine ⟨?_, ?_, ?_, rowsIff, ?_⟩
  · rw [counter, counted]
    omega
  · rw [counter, counted]
    exact le_refl _
  · intro id member
    rw [List.mem_singleton] at member
    exact Or.inr ⟨engine.postSeqCounter.toNat + 1, by omega, by rw [counter, counted],
      by rw [member, form]⟩
  · intro id traced
    rcases traces id traced with row | old | same
    · rcases (rowsIff id).mp row with old | new
      · exact Or.inl (Or.inl old)
      · exact Or.inr new
    · exact Or.inl old
    · exact Or.inr (List.mem_singleton.mpr same)

theorem traces_setPostRecord {engine : Engine} {post : Post} {id : UInt64}
    (traced : (engine.setPostRecord post).Traces id) : engine.Traces id ∨ id = post.id :=
  traces_recordFrame (.setPostRecord engine rfl) traced

theorem insertNewPost_sharded {cfg : Config} (sharded : 1 < cfg.numShards) {engine : Engine}
    (room : Numbering.Room cfg engine 1) {post : Post} (free : post.id = 0) :
    (∃ failure, engine.insertNewPost cfg post =
      ({ engine with postSeqCounter := (engine.nextShardID cfg).1.postSeqCounter },
        .error failure)) ∨
    ∃ after created, engine.insertNewPost cfg post = (after, .ok created) ∧
      GivesOut cfg engine after [created.id] ∧ (engine.metaDB.posts.get? created.id) = none ∧
      after.commentsDB = engine.commentsDB ∧ after.votesDB = engine.votesDB ∧
      after.historyDB = engine.historyDB := by
  unfold insertNewPost
  rw [candidateID_sharded sharded engine free]
  dsimp only
  cases inserted : (engine.nextShardID cfg).1.metaDB.insertPost
      (some (engine.nextShardID cfg).2) (createdRow post) with
  | error failure => exact Or.inl ⟨_, rfl⟩
  | ok result =>
      obtain ⟨metaDB, id⟩ := result
      obtain ⟨added, choice, missing, _file, _bound⟩ := MetaDB.insertPost_ok inserted
      have sameID : id = (engine.nextShardID cfg).2 := (MetaDB.chooseID_some choice).1
      subst sameID
      dsimp only
      generalize recording : ({ post with id := (engine.nextShardID cfg).2 } : Post) = created
      have createdID : created.id = (engine.nextShardID cfg).2 := by rw [← recording]
      generalize storing : ({ (engine.nextShardID cfg).1 with metaDB := metaDB } :
        Engine).setPostRecord created = stored
      have rendered := renderAndSave_frame cfg stored created
      have cached := writePostCache_frame created.id cfg (stored.renderAndSave cfg created) created
      have frame := rendered.trans cached
      refine Or.inr ⟨_, created, rfl, ?_, ?_, ?_, ?_, ?_⟩
      · rw [createdID]
        refine givesOut_insert sharded room added ?_ ?_ ?_
        · rw [frame.postSeqCounter, ← storing]
          rfl
        · rw [frame.metaDB, ← storing]
          rfl
        · intro other traced
          rcases traces_recordFrame frame traced with before | same
          · rw [← storing] at before
            rcases traces_setPostRecord before with before | same
            · rcases before with row | rest
              · left
                rw [frame.metaDB, ← storing]
                exact row
              · exact Or.inr (Or.inl (Or.inr rest))
            · exact Or.inr (Or.inr (same.trans createdID))
          · exact Or.inr (Or.inr (same.trans createdID))
      · rw [createdID]
        exact missing
      · rw [frame.commentsDB, ← storing]
        rfl
      · rw [frame.votesDB, ← storing]
        rfl
      · rw [frame.historyDB, ← storing]
        rfl

/-! #### Imports -/

theorem traces_importComments {engine : Engine} {postID id : UInt64}
    {comments : List (Comment × Nat)}
    (traced : (comments.foldl (importComment postID) engine).Traces id) :
    engine.Traces id ∨ id = postID := by
  induction comments generalizing engine with
  | nil => exact Or.inl traced
  | cons first rest ih =>
      rcases ih traced with before | same
      · exact traces_setCommentRecord (traces_authorIndex before)
      · exact Or.inr same

theorem traces_importVotes {engine : Engine} {postID id : UInt64} {votes : List VoteRecord}
    (traced : (votes.foldl (importVote postID) engine).Traces id) :
    engine.Traces id ∨ id = postID := by
  induction votes generalizing engine with
  | nil => exact Or.inl traced
  | cons first rest ih =>
      rcases ih traced with before | same
      · unfold importVote at before
        split at before
        · rcases before with row | record | comments | votes | history
          · exact Or.inl (Or.inl row)
          · exact Or.inl (Or.inr (Or.inl record))
          · exact Or.inl (Or.inr (Or.inr (Or.inl comments)))
          · rcases votes.of_set with old | new
            · exact Or.inl (Or.inr (Or.inr (Or.inr (Or.inl old))))
            · exact Or.inr (votePrefix_of_voteKey new)
          · exact Or.inl (Or.inr (Or.inr (Or.inr (Or.inr history))))
        · exact Or.inl before
      · exact Or.inr same

theorem traces_importCrossposts {engine : Engine} {postID id : UInt64}
    {crossposts : List (CrosspostRecord × Nat)}
    (traced : (crossposts.foldl (importCrosspost postID) engine).Traces id) :
    engine.Traces id := by
  have frame := importCrossposts_frame postID crossposts engine
  unfold Traces at traced ⊢
  rw [frame.posts, frame.commentsDB, frame.votesDB, frame.historyDB,
    frame.others _ (by rw [encodePostKey_head]; decide)] at traced
  exact traced

theorem importPost_sharded {cfg : Config} (sharded : 1 < cfg.numShards) {engine : Engine}
    {item : ImportedPostData} (room : Numbering.Room cfg engine 1) (free : item.post.id = 0) :
    (∃ failure, engine.importPost cfg item =
      ({ engine with postSeqCounter := (engine.nextShardID cfg).1.postSeqCounter },
        .error failure)) ∨
    ∃ after id, engine.importPost cfg item = (after, .ok id) ∧ GivesOut cfg engine after [id] := by
  obtain ⟨counted, form⟩ := nextShardID_toNat sharded room
  have freePrepared : item.prepared.id = 0 := free
  unfold importPost
  dsimp only
  rw [candidateID_sharded sharded engine freePrepared]
  dsimp only
  cases upserted : (engine.nextShardID cfg).1.metaDB.upsertPost
      (some (engine.nextShardID cfg).2) (importedRow item.prepared) with
  | error failure => exact Or.inl ⟨_, rfl⟩
  | ok result =>
      obtain ⟨metaDB, id⟩ := result
      dsimp only
      generalize storing : ({ (engine.nextShardID cfg).1 with metaDB := metaDB } :
        Engine).setPostRecord { item.prepared with id := id } = stored
      generalize importing : item.crossposts.zipIdx.foldl (importCrosspost id)
        (item.votes.foldl (importVote id) (item.comments.zipIdx.foldl (importComment id)
          stored)) = after
      have frame := importCrossposts_frame id item.crossposts.zipIdx
        (item.votes.foldl (importVote id) (item.comments.zipIdx.foldl (importComment id) stored))
      rw [importing, importVotes_frame, importComments_frame] at frame
      have counter : after.postSeqCounter = (engine.nextShardID cfg).1.postSeqCounter := by
        rw [frame.postSeqCounter, ← storing]
        rfl
      have rows : after.metaDB.posts = metaDB.posts := by
        rw [frame.posts, ← storing]
        rfl
      have traces : ∀ other, after.Traces other →
          (after.metaDB.posts.get? other).isSome ∨ engine.Traces other ∨ other = id := by
        intro other traced
        rw [← importing] at traced
        rcases traces_importVotes (traces_importCrossposts traced) with before | same
        · rcases traces_importComments before with before | same
          · rw [← storing] at before
            rcases traces_setPostRecord before with before | same
            · rcases before with row | rest
              · left
                rw [rows]
                exact row
              · exact Or.inr (Or.inl (Or.inr rest))
            · exact Or.inr (Or.inr same)
          · exact Or.inr (Or.inr same)
        · exact Or.inr (Or.inr same)
      refine Or.inr ⟨after, id, rfl, ?_⟩
      obtain ⟨chosen, choice, ⟨found, changed⟩ | ⟨sameID, _file, _missing, added⟩⟩ :=
        MetaDB.upsertPost_ok upserted
      · -- The file is there already: its row is changed and the id of the shard is lost.
        obtain ⟨row, isRow, _names⟩ := MetaDB.findFile_some found
        have present : (engine.metaDB.posts.get? id).isSome :=
          Option.isSome_iff_exists.mpr ⟨row, isRow⟩
        have rowsIff : ∀ other, (after.metaDB.posts.get? other).isSome ↔
            (engine.metaDB.posts.get? other).isSome ∨ other ∈ [id] := by
          intro other
          rw [rows, changed, List.mem_singleton]
          dsimp only
          by_cases same : other = id
          · subst same
            rw [OrderedMap.get?_modify_self, Option.isSome_map]
            exact ⟨fun _ => Or.inr rfl, fun _ => present⟩
          · rw [OrderedMap.get?_modify_of_ne _ _ same]
            exact ⟨fun known => Or.inl known, fun known => known.resolve_right same⟩
        refine ⟨by rw [counter, counted]; omega, by rw [counter, counted]; exact le_refl _, ?_,
          rowsIff, ?_⟩
        · intro other member
          rw [List.mem_singleton.mp member]
          exact Or.inl present
        · intro other traced
          rcases traces other traced with row | old | same
          · rcases (rowsIff other).mp row with old | new
            · exact Or.inl (Or.inl old)
            · exact Or.inr new
          · exact Or.inl old
          · exact Or.inr (List.mem_singleton.mpr same)
      · have isNext : id = (engine.nextShardID cfg).2 := by
          rw [sameID]
          exact (MetaDB.chooseID_some choice).1
        rw [isNext]
        rw [isNext] at added traces
        exact givesOut_insert sharded room added counter rows traces

theorem importPosts_sharded {cfg : Config} (sharded : 1 < cfg.numShards)
    {batch : List ImportedPostData} {engine : Engine}
    (room : Numbering.Room cfg engine batch.length)
    (free : ∀ item ∈ batch, item.post.id = 0) :
    engine.postSeqCounter.toNat ≤ (engine.importPosts cfg batch).1.postSeqCounter.toNat ∧
      ∀ after imported, engine.importPosts cfg batch = (after, .ok imported) →
        GivesOut cfg engine after (imported.map Prod.fst) := by
  induction batch generalizing engine with
  | nil =>
      refine ⟨le_refl _, fun after imported done => ?_⟩
      cases done
      exact .refl engine
  | cons item rest ih =>
      have roomOne : Numbering.Room cfg engine 1 := by
        unfold Numbering.Room at room ⊢
        rw [List.length_cons] at room
        refine lt_of_le_of_lt (Nat.add_le_add_right (Nat.mul_le_mul_right _ ?_) _) room
        omega
      obtain ⟨counted, _form⟩ := nextShardID_toNat sharded roomOne
      unfold importPosts
      rcases importPost_sharded sharded roomOne (free item List.mem_cons_self) with
        ⟨failure, failed⟩ | ⟨middle, id, imported, gives⟩
      · rw [failed]
        refine ⟨?_, fun after imported done => nomatch done⟩
        dsimp only
        rw [counted]
        omega
      · rw [imported]
        have roomRest : Numbering.Room cfg middle rest.length := by
          have bound := gives.bound
          unfold Numbering.Room at room ⊢
          rw [List.length_singleton] at bound
          rw [List.length_cons] at room
          refine lt_of_le_of_lt (Nat.add_le_add_right (Nat.mul_le_mul_right _ ?_) _) room
          omega
        obtain ⟨further, ok⟩ := ih roomRest
          (fun other member => free other (List.mem_cons_of_mem _ member))
        dsimp only
        cases later : middle.importPosts cfg rest with
        | mk after result =>
            rw [later] at further
            have forward := le_trans gives.counter further
            cases result with
            | error failure => exact ⟨forward, fun after imported done => nomatch done⟩
            | ok more =>
                refine ⟨forward, fun after imported done => ?_⟩
                cases done
                exact gives.trans (ok _ _ later)

/-! ### Operations that give out no ids -/

namespace NoMoreTraces

variable {before after : Engine}

theorem refl (engine : Engine) : NoMoreTraces engine engine := ⟨rfl, fun _ traced => traced⟩

theorem trans {middle : Engine} (left : NoMoreTraces before middle)
    (right : NoMoreTraces middle after) : NoMoreTraces before after :=
  ⟨right.counter.trans left.counter, fun id traced => left.traces id (right.traces id traced)⟩

theorem of_parts (counter : after.postSeqCounter = before.postSeqCounter)
    (rows : ∀ id, (after.metaDB.posts.get? id).isSome → before.Traces id)
    (records : ∀ id, (after.postsDB.get? (encodePostKey id)).isSome →
      (before.postsDB.get? (encodePostKey id)).isSome)
    (comments : ∀ stem, HasStem after.commentsDB stem → HasStem before.commentsDB stem)
    (votes : ∀ stem, HasStem after.votesDB stem → HasStem before.votesDB stem)
    (history : ∀ stem, HasStem after.historyDB stem → HasStem before.historyDB stem) :
    NoMoreTraces before after := by
  refine ⟨counter, fun id traced => ?_⟩
  rcases traced with row | record | comment | vote | revision
  · exact rows id row
  · exact Or.inr (Or.inl (records id record))
  · exact Or.inr (Or.inr (Or.inl (comments _ comment)))
  · exact Or.inr (Or.inr (Or.inr (Or.inl (votes _ vote))))
  · exact Or.inr (Or.inr (Or.inr (Or.inr (history _ revision))))

end NoMoreTraces

theorem noMoreTraces_flush (engine : Engine) : NoMoreTraces engine engine.flushDirtyDeltas := by
  refine .of_parts rfl (fun id row => Or.inl ?_) (fun _ => id) (fun _ => id) (fun _ => id)
    (fun _ => id)
  unfold flushDirtyDeltas at row
  rw [OrderedMap.get?_mapValues, Option.isSome_map] at row
  exact row

theorem noMoreTraces_getPost (cfg : Config) (engine : Engine) (postID : UInt64) :
    NoMoreTraces engine (engine.getPost cfg postID).1 := by
  have frame := getPost_frame cfg engine postID
  refine ⟨frame.postSeqCounter, fun id traced => ?_⟩
  rcases traces_recordFrame frame traced with old | same
  · exact old
  · -- The record of a post is completed only where there is a row.
    subst same
    unfold getPost at traced
    cases stored : engine.metaDB.posts.get? id with
    | none =>
        rw [stored] at traced
        exact traced
    | some row => exact Or.inl (by rw [stored]; rfl)

theorem noMoreTraces_purgeRecords (engine : Engine) (postID : UInt64) :
    NoMoreTraces engine (engine.purgeRecords postID) := by
  refine .of_parts rfl (fun _ row => Or.inl row) (fun id record => ?_)
    (fun _ found => found.of_deleteAll) (fun _ found => found.of_deleteAll)
    (fun _ found => found.of_deleteAll)
  unfold purgeRecords at record
  rw [OrderedMap.get?_deleteAll] at record
  split at record
  · cases record
  · exact record

theorem noMoreTraces_purgePost (cfg : Config) (engine : Engine) (postID : UInt64) :
    NoMoreTraces engine (engine.purgePost cfg postID).1 := by
  have reading := noMoreTraces_getPost cfg engine postID
  unfold purgePost
  cases read : engine.getPost cfg postID with
  | mk reader result =>
      rw [read] at reading
      cases result with
      | error failure => exact reading
      | ok post =>
          refine reading.trans ((noMoreTraces_flush reader).trans ?_)
          dsimp only
          unfold purgePostRecord
          dsimp only
          generalize purging : ({ reader.flushDirtyDeltas with
            metaDB := purgePostRows reader.flushDirtyDeltas.metaDB post } : Engine) = purged
          have rows : NoMoreTraces reader.flushDirtyDeltas purged := by
            rw [← purging]
            refine .of_parts rfl (fun id row => Or.inl ?_) (fun _ => id) (fun _ => id)
              (fun _ => id) (fun _ => id)
            unfold purgePostRows at row
            rw [OrderedMap.get?_delete] at row
            split at row
            · cases row
            · exact row
          refine rows.trans ((noMoreTraces_purgeRecords purged post.id).trans ?_)
          unfold removeCacheFile
          split
          · exact .refl _
          · split
            · exact .of_parts rfl (fun _ row => Or.inl row) (fun _ => id) (fun _ => id)
                (fun _ => id) (fun _ => id)
            · exact .refl _

theorem get?_markDeleted (postsDB : Pebble) (targets : List UInt64) (key : Bytes) :
    ((targets.foldl (fun postsDB id => postsDB.modify (encodePostKey id) markDeleted)
      postsDB).get? key).isSome = (postsDB.get? key).isSome := by
  induction targets generalizing postsDB with
  | nil => rfl
  | cons first rest ih =>
      rw [List.foldl_cons, ih, OrderedMap.get?_modify]
      split
      · rename_i same
        rw [same, Option.isSome_map]
      · rfl

theorem noMoreTraces_purgeUserPosts (engine : Engine) (author : Bytes) (minTimestamp : Int64) :
    NoMoreTraces engine (engine.purgeUserPosts author minTimestamp).1 := by
  refine .of_parts rfl (fun id row => Or.inl ?_) (fun id record => ?_) (fun _ => id)
    (fun _ => id) (fun _ => id)
  · unfold purgeUserPosts at row
    rw [OrderedMap.get?_deleteAll] at row
    split at row
    · cases row
    · exact row
  · unfold purgeUserPosts at record
    rw [get?_markDeleted] at record
    exact record

theorem noMoreTraces_deleteCommunity (engine : Engine) (community : Bytes) :
    NoMoreTraces engine (engine.deleteCommunity community).1 := by
  unfold deleteCommunity
  split
  · exact .refl engine
  · refine (noMoreTraces_flush engine).trans ?_
    dsimp only
    generalize communityPosts engine.flushDirtyDeltas.metaDB community = posts
    generalize deleting : ({ engine.flushDirtyDeltas with
      metaDB := deleteCommunityRows engine.flushDirtyDeltas.metaDB community } : Engine) = deleted
    have rows : NoMoreTraces engine.flushDirtyDeltas deleted := by
      rw [← deleting]
      refine .of_parts rfl (fun id row => Or.inl ?_) (fun _ => id) (fun _ => id) (fun _ => id)
        (fun _ => id)
      unfold deleteCommunityRows at row
      rw [OrderedMap.get?_keep] at row
      obtain ⟨kept, found⟩ := Option.isSome_iff_exists.mp row
      exact Option.isSome_iff_exists.mpr ⟨kept, (Option.filter_eq_some_iff.mp found).1⟩
    refine rows.trans ?_
    clear deleting rows
    induction posts generalizing deleted with
    | nil => exact .refl deleted
    | cons first rest ih => exact (noMoreTraces_purgeRecords deleted first).trans (ih _)

theorem noMoreTraces_rebuild (engine : Engine) :
    NoMoreTraces engine engine.rebuildSQLiteFromPebble.1 := by
  rcases rebuild_cases engine with ⟨failure, failed⟩ | ⟨metaDB, counts, rebuilt⟩
  · rw [failed]
    exact .refl engine
  · have rows := rebuild_posts rebuilt
    rw [rebuilt]
    refine .of_parts rfl (fun id row => Or.inr (Or.inl ?_)) (fun _ => id) (fun _ => id)
      (fun _ => id) (fun _ => id)
    rw [rows id, Option.isSome_map] at row
    exact row

end Engine

/-! ### Steps and runs -/

namespace Numbering

/-- The ids given out are different, come from the counter, and everything stored
is about one of them. -/
structure Kept (cfg : Config) (state : Numbering) : Prop where
  nodup : state.assigned.Nodup
  form : ∀ id ∈ state.assigned, ∃ sequence, sequence ≤ state.engine.postSeqCounter.toNat ∧
    id.toNat = sequence * cfg.numShards.toNat + cfg.shardID.toNat
  traces : ∀ id, state.engine.Traces id → id ∈ state.assigned

section Step

variable {cfg : Config} {state : Numbering} {op : Op}

theorem newIDs_of_rows {engine : Engine}
    (same : (engine.after cfg op).metaDB.posts = engine.metaDB.posts) :
    engine.newIDs cfg op = [] := by
  unfold Engine.newIDs
  rw [List.filter_eq_nil_iff]
  intro id _member
  rw [same]
  cases engine.metaDB.posts.get? id <;> simp

theorem newIDs_of_nothing {engine : Engine}
    (nothing : returnedIDs (engine.step cfg op).2 = []) : engine.newIDs cfg op = [] := by
  unfold Engine.newIDs
  rw [nothing]
  rfl

theorem Kept.quiet (kept : state.Kept cfg) (none : state.engine.newIDs cfg op = [])
    (counter : state.engine.postSeqCounter.toNat ≤
      (state.engine.after cfg op).postSeqCounter.toNat)
    (traces : ∀ id, (state.engine.after cfg op).Traces id → id ∈ state.assigned) :
    (state.step cfg op).Kept cfg := by
  have assigned : (state.step cfg op).assigned = state.assigned := by
    unfold step
    rw [none, List.append_nil]
  constructor
  · rw [assigned]
    exact kept.nodup
  · intro id member
    rw [assigned] at member
    obtain ⟨sequence, below, form⟩ := kept.form id member
    exact ⟨sequence, le_trans below counter, form⟩
  · intro id traced
    rw [assigned]
    exact traces id traced

theorem Kept.noMore (kept : state.Kept cfg)
    (none : returnedIDs (state.engine.step cfg op).2 = [])
    (noMore : Engine.NoMoreTraces state.engine (state.engine.after cfg op)) :
    (state.step cfg op).Kept cfg :=
  kept.quiet (newIDs_of_nothing none) (le_of_eq (by rw [noMore.counter]))
    (fun id traced => kept.traces id (noMore.traces id traced))

private theorem sequence_unique {shards shard first second id : Nat} (small : shard < shards)
    (left : id = first * shards + shard) (right : id = second * shards + shard) :
    first = second := by
  have product : first * shards = second * shards := by omega
  exact Nat.eq_of_mul_eq_mul_right (by omega) product

theorem Kept.gives (shard : cfg.shardID < cfg.numShards) (kept : state.Kept cfg)
    (gives : Engine.GivesOut cfg state.engine (state.engine.after cfg op)
      (returnedIDs (state.engine.step cfg op).2)) : (state.step cfg op).Kept cfg := by
  have isNew : ∀ id ∈ state.engine.newIDs cfg op, ∃ sequence,
      state.engine.postSeqCounter.toNat < sequence ∧
        sequence ≤ (state.engine.after cfg op).postSeqCounter.toNat ∧
        id.toNat = sequence * cfg.numShards.toNat + cfg.shardID.toNat := by
    intro id member
    obtain ⟨returned, fresh⟩ := List.mem_filter.mp member
    rw [Bool.and_eq_true, Option.isNone_iff_eq_none] at fresh
    rcases gives.chosen id (List.mem_dedup.mp returned) with row | new
    · rw [fresh.1] at row
      cases row
    · exact new
  have newOrOld : ∀ id ∈ returnedIDs (state.engine.step cfg op).2,
      id ∈ state.assigned ++ state.engine.newIDs cfg op := by
    intro id member
    rw [List.mem_append]
    cases row : state.engine.metaDB.posts.get? id with
    | some found => exact Or.inl (kept.traces id (Or.inl (by rw [row]; rfl)))
    | none =>
        refine Or.inr (List.mem_filter.mpr ⟨List.mem_dedup.mpr member, ?_⟩)
        rw [Bool.and_eq_true, Option.isNone_iff_eq_none]
        exact ⟨row, (gives.rows id).mpr (Or.inr member)⟩
  constructor
  · refine List.nodup_append.mpr ⟨kept.nodup, (List.nodup_dedup _).filter _, ?_⟩
    rintro id old other new rfl
    obtain ⟨sequence, below, form⟩ := kept.form id old
    obtain ⟨next, above, _bound, nextForm⟩ := isNew id new
    have same := sequence_unique (UInt64.lt_iff_toNat_lt.mp shard) form nextForm
    omega
  · intro id member
    rcases List.mem_append.mp member with old | new
    · obtain ⟨sequence, below, form⟩ := kept.form id old
      exact ⟨sequence, le_trans below gives.counter, form⟩
    · obtain ⟨sequence, _above, below, form⟩ := isNew id new
      exact ⟨sequence, below, form⟩
  · intro id traced
    rcases gives.traces id traced with old | returned
    · exact List.mem_append_left _ (kept.traces id old)
    · exact newOrOld id returned

theorem createPost_cases (sharded : 1 < cfg.numShards) (kept : state.Kept cfg) (now : Int64)
    (post : Post) (keeps : state.KeepsNumbers cfg (.createPost now post)) :
    (state.engine.newIDs cfg (.createPost now post) = [] ∧
      state.engine.postSeqCounter.toNat ≤
        (state.engine.after cfg (.createPost now post)).postSeqCounter.toNat ∧
      ∀ id, (state.engine.after cfg (.createPost now post)).Traces id → id ∈ state.assigned) ∨
    ∃ after created, state.engine.step cfg (.createPost now post) = (after, .ok (.post created)) ∧
      Engine.GivesOut cfg state.engine after [created.id] ∧
      state.engine.metaDB.posts.get? created.id = none ∧
      after.commentsDB = state.engine.commentsDB ∧ after.votesDB = state.engine.votesDB ∧
      after.historyDB = state.engine.historyDB := by
  obtain ⟨free, room, demoted⟩ := keeps
  generalize preparing : Engine.preparePost now post = prepared
  have preparedID : prepared.id = 0 := by
    rw [← preparing]
    exact free
  have preparedParent : prepared.parentID = post.parentID := by rw [← preparing]; rfl
  by_cases short : demotes cfg now post = true
  · have short' := short
    unfold demotes at short'
    dsimp only at short'
    rw [preparing] at short'
    generalize replying : Engine.demotedComment prepared
      (extractNetNewContent prepared.content) = reply
    have replyID : reply.postID = post.parentID := by
      rw [← replying]
      exact preparedParent
    have left : state.engine.after cfg (.createPost now post) =
        (state.engine.addComment cfg now reply).1 := by
      unfold Engine.after Engine.step
      simp only [Outcome.reply_fst, Engine.createPost, preparing,
        if_pos short', replying]
    refine Or.inl ⟨newIDs_of_rows ?_, ?_, ?_⟩
    · rw [left, (Engine.addComment_posts cfg _ _ _).2]
    · rw [left, (Engine.addComment_posts cfg _ _ _).1]
    · intro id traced
      rw [left] at traced
      rcases Engine.traces_addComment cfg _ _ _ traced with old | same
      · exact kept.traces id old
      · rw [same, replyID]
        exact demoted short
  · have long := short
    unfold demotes at long
    dsimp only at long
    rw [preparing] at long
    cases existing : state.engine.existingPost prepared with
    | some id =>
        have left : state.engine.after cfg (.createPost now post) =
            state.engine.setPostRecord { prepared with id := id } := by
          unfold Engine.after Engine.step
          simp only [Outcome.reply_fst, Engine.createPost, preparing,
            if_neg long, existing]
        have present : (state.engine.metaDB.posts.get? id).isSome := by
          unfold Engine.existingPost at existing
          split at existing
          · obtain ⟨row, stored, _names⟩ := MetaDB.findFile_some existing
            exact Option.isSome_iff_exists.mpr ⟨row, stored⟩
          · cases existing
        refine Or.inl ⟨newIDs_of_rows ?_, ?_, ?_⟩
        · rw [left]
          rfl
        · rw [left]
          exact le_refl _
        · intro other traced
          rw [left] at traced
          rcases Engine.traces_setPostRecord traced with old | same
          · exact kept.traces other old
          · rw [same]
            exact kept.traces id (Or.inl present)
    | none =>
        have stepped : state.engine.step cfg (.createPost now post) =
            Outcome.reply (state.engine.insertNewPost cfg prepared) .post := by
          unfold Engine.step
          simp only [Engine.createPost, preparing, if_neg long, existing]
        rcases Engine.insertNewPost_sharded sharded room preparedID with
          ⟨failure, failed⟩ | ⟨after, created, inserted, rest⟩
        · rw [failed] at stepped
          have left : state.engine.after cfg (.createPost now post) =
              { state.engine with
                postSeqCounter := (state.engine.nextShardID cfg).1.postSeqCounter } :=
            congrArg Prod.fst stepped
          refine Or.inl ⟨newIDs_of_nothing ?_, ?_, ?_⟩
          · rw [stepped]
            rfl
          · rw [left]
            dsimp only
            rw [(Engine.nextShardID_toNat sharded room).1]
            omega
          · intro id traced
            rw [left] at traced
            exact kept.traces id traced
        · rw [inserted] at stepped
          exact Or.inr ⟨after, created, stepped, rest⟩

theorem kept_createPost (sharded : 1 < cfg.numShards) (shard : cfg.shardID < cfg.numShards)
    (kept : state.Kept cfg) (now : Int64) (post : Post)
    (keeps : state.KeepsNumbers cfg (.createPost now post)) :
    (state.step cfg (.createPost now post)).Kept cfg := by
  rcases createPost_cases sharded kept now post keeps with
    ⟨none, counter, traces⟩ | ⟨after, created, stepped, gives, _rest⟩
  · exact kept.quiet none counter traces
  · apply kept.gives shard
    have left : state.engine.after cfg (.createPost now post) = after := congrArg Prod.fst stepped
    rw [left, stepped]
    exact gives

theorem kept_importPostBatch (sharded : 1 < cfg.numShards) (shard : cfg.shardID < cfg.numShards)
    (kept : state.Kept cfg) (batch : List ImportedPostData)
    (keeps : state.KeepsNumbers cfg (.importPostBatch batch)) :
    (state.step cfg (.importPostBatch batch)).Kept cfg := by
  obtain ⟨free, room⟩ := keeps
  obtain ⟨forward, ok⟩ := Engine.importPosts_sharded sharded room free
  cases imported : state.engine.importPosts cfg batch with
  | mk reached result =>
      rw [imported] at forward
      cases result with
      | error failure =>
          have stepped : state.engine.step cfg (.importPostBatch batch) =
              ({ state.engine with postSeqCounter := reached.postSeqCounter },
                .error failure) := by
            unfold Engine.step
            simp only [Engine.importPostBatch, imported]
            rfl
          have left : state.engine.after cfg (.importPostBatch batch) =
              { state.engine with postSeqCounter := reached.postSeqCounter } :=
            congrArg Prod.fst stepped
          refine kept.quiet (newIDs_of_nothing ?_) ?_ ?_
          · rw [stepped]
            rfl
          · rw [left]
            exact forward
          · intro id traced
            rw [left] at traced
            exact kept.traces id traced
      | ok entries =>
          have gives := ok reached entries imported
          have returned : (state.engine.step cfg (.importPostBatch batch)).2 =
              .ok (.ids (entries.map Prod.fst)) := by
            unfold Engine.step
            simp only [Engine.importPostBatch, imported]
            rfl
          have left : ∃ postSeqs, state.engine.after cfg (.importPostBatch batch) =
              { reached with postSeqs := postSeqs } := by
            unfold Engine.after Engine.step
            simp only [Engine.importPostBatch, imported]
            exact ⟨_, rfl⟩
          obtain ⟨postSeqs, left⟩ := left
          apply kept.gives shard
          rw [left, returned]
          exact ⟨gives.counter, gives.bound, gives.chosen, gives.rows, gives.traces⟩

theorem maxPostID_flush (engine : Engine) :
    Engine.maxPostID engine.flushDirtyDeltas.metaDB = Engine.maxPostID engine.metaDB := by
  unfold Engine.maxPostID Engine.flushDirtyDeltas
  dsimp only [OrderedMap.mapValues]
  rw [List.getLast?_map]
  cases engine.metaDB.posts.entries.getLast? <;> rfl

theorem kept_restart (shard : cfg.shardID < cfg.numShards) (sharded : 1 < cfg.numShards)
    (kept : state.Kept cfg) (keeps : state.KeepsNumbers cfg .restart) :
    (state.step cfg .restart).Kept cfg := by
  have flushed := Engine.noMoreTraces_flush state.engine
  have assigned : (state.step cfg .restart).assigned = state.assigned := by
    have none : state.engine.newIDs cfg .restart = [] := newIDs_of_nothing rfl
    unfold step
    rw [none, List.append_nil]
  have small := UInt64.lt_iff_toNat_lt.mp shard
  constructor
  · rw [assigned]
    exact kept.nodup
  · intro id member
    rw [assigned] at member
    obtain ⟨sequence, _below, form⟩ := kept.form id member
    have behind := UInt64.le_iff_toNat_le.mp (keeps id member)
    rw [UInt64.toNat_div, UInt64.toNat_div, form] at behind
    have division : (sequence * cfg.numShards.toNat + cfg.shardID.toNat) / cfg.numShards.toNat =
        sequence := by
      rw [Nat.mul_comm, Nat.mul_add_div (by omega), Nat.div_eq_of_lt small, Nat.add_zero]
    rw [division] at behind
    refine ⟨sequence, ?_, form⟩
    change sequence ≤ (if 1 < cfg.numShards then
      Engine.maxPostID state.engine.flushDirtyDeltas.metaDB / cfg.numShards else 0).toNat
    rw [if_pos sharded, maxPostID_flush, UInt64.toNat_div]
    exact behind
  · intro id traced
    rw [assigned]
    exact kept.traces id (flushed.traces id traced)

theorem kept_step (sharded : 1 < cfg.numShards) (shard : cfg.shardID < cfg.numShards)
    (kept : state.Kept cfg) (numbers : op.numbers = true) (keeps : state.KeepsNumbers cfg op) :
    (state.step cfg op).Kept cfg := by
  cases op with
  | createPost now post => exact kept_createPost sharded shard kept now post keeps
  | importPostBatch batch => exact kept_importPostBatch sharded shard kept batch keeps
  | purgePost postID =>
      refine kept.noMore ?_ (Engine.noMoreTraces_purgePost cfg state.engine postID)
      unfold Engine.step
      simp only [Outcome.reply]
      cases (state.engine.purgePost cfg postID).2 <;> rfl
  | purgeUserPosts author minTimestamp =>
      exact kept.noMore rfl (Engine.noMoreTraces_purgeUserPosts state.engine author minTimestamp)
  | deleteCommunity community =>
      refine kept.noMore ?_ (Engine.noMoreTraces_deleteCommunity state.engine community)
      unfold Engine.step
      simp only [Outcome.reply]
      cases (state.engine.deleteCommunity community).2 <;> rfl
  | rebuildSQLiteFromPebble =>
      refine kept.noMore ?_ (Engine.noMoreTraces_rebuild state.engine)
      unfold Engine.step
      simp only [Outcome.reply]
      cases state.engine.rebuildSQLiteFromPebble.2 <;> rfl
  | restart => exact kept_restart shard sharded kept keeps
  | _ => cases numbers

end Step

theorem kept_start (cfg : Config) : Kept cfg {} where
  nodup := List.nodup_nil
  form := fun _ member => nomatch member
  traces := by
    rintro id (row | record | comments | votes | history)
    · cases row
    · cases record
    · exact comments.of_empty.elim
    · exact votes.of_empty.elim
    · exact history.of_empty.elim

theorem kept_run {cfg : Config} (sharded : 1 < cfg.numShards)
    (shard : cfg.shardID < cfg.numShards) {ops : List Op}
    (numbers : ∀ op ∈ ops, op.numbers = true)
    (meets : StepsMeet (step cfg) (KeepsNumbers cfg) {} ops) : (run (step cfg) {} ops).Kept cfg := by
  refine invariant_run_mem ?_ (kept_start cfg) meets
  intro state op member kept keeps
  exact kept_step sharded shard kept (numbers op member) keeps

/-! ### Fresh posts -/

def Bare (cfg : Config) (engine : Engine) (id : UInt64) : Prop :=
  (∀ startFloor limit, engine.getComments cfg id startFloor limit = []) ∧
    engine.getVotes id = [] ∧ engine.listPostHistory id = []

theorem bare_of_no_stems {cfg : Config} {engine : Engine} {id : UInt64}
    (comments : ¬ HasStem engine.commentsDB (encodeCommentPrefix id))
    (votes : ¬ HasStem engine.votesDB (encodeVotePrefix id))
    (history : ¬ HasStem engine.historyDB (encodePostHistoryPrefix id)) : Bare cfg engine id := by
  refine ⟨?_, ?_, ?_⟩
  · intro startFloor limit
    unfold Engine.getComments Engine.getCommentsFiltered
    rw [seekPrefix_of_no_stem comments]
    exact List.take_nil
  · unfold Engine.getVotes
    rw [scanPrefix_of_no_stem votes]
    rfl
  · unfold Engine.listPostHistory
    rw [scanPrefix_of_no_stem history]
    rfl

theorem bare_fresh {cfg : Config} (sharded : 1 < cfg.numShards)
    (shard : cfg.shardID < cfg.numShards) {state : Numbering} (kept : state.Kept cfg)
    {now : Int64} {post : Post} (keeps : state.KeepsNumbers cfg (.createPost now post))
    {id : UInt64} (fresh : id ∈ state.engine.newIDs cfg (.createPost now post)) :
    Bare cfg (state.engine.after cfg (.createPost now post)) id := by
  rcases createPost_cases sharded kept now post keeps with
    ⟨none, _counter, _traces⟩ | ⟨after, created, stepped, gives, missing, comments, votes, history⟩
  · rw [none] at fresh
    cases fresh
  · have left : state.engine.after cfg (.createPost now post) = after := congrArg Prod.fst stepped
    have returned : id = created.id := by
      have member := List.mem_dedup.mp (List.mem_filter.mp fresh).1
      rw [stepped] at member
      exact List.mem_singleton.mp member
    -- Nothing was stored under the id, since it is beyond the counter.
    have untraced : ¬ state.engine.Traces id := by
      intro traced
      obtain ⟨sequence, below, form⟩ := kept.form id (kept.traces id traced)
      rcases gives.chosen id (List.mem_singleton.mpr returned) with row | ⟨next, above, _bound, same⟩
      · rw [returned, missing] at row
        cases row
      · have equal := sequence_unique (UInt64.lt_iff_toNat_lt.mp shard) form same
        omega
    rw [left]
    refine bare_of_no_stems ?_ ?_ ?_
    · rw [comments]
      exact fun stored => untraced (Or.inr (Or.inr (Or.inl stored)))
    · rw [votes]
      exact fun stored => untraced (Or.inr (Or.inr (Or.inr (Or.inl stored))))
    · rw [history]
      exact fun stored => untraced (Or.inr (Or.inr (Or.inr (Or.inr stored))))

/-- A shard whose restarts find a row for its greatest id never gives an id twice,
and a post it has just created has no comments, votes or revisions. -/
theorem ids_never_reused {cfg : Config} (sharded : 1 < cfg.numShards)
    (shard : cfg.shardID < cfg.numShards) {ops : List Op}
    (numbers : ∀ op ∈ ops, op.numbers = true)
    (meets : StepsMeet (step cfg) (KeepsNumbers cfg) {} ops) :
    (run (step cfg) {} ops).assigned.Nodup ∧
      (∀ id ∈ (run (step cfg) {} ops).assigned, id % cfg.numShards = cfg.shardID) ∧
      ∀ before now post after, ops = before ++ .createPost now post :: after →
        let engine := (run (step cfg) {} before).engine
        ∀ id ∈ engine.newIDs cfg (.createPost now post),
          Bare cfg (engine.after cfg (.createPost now post)) id := by
  have kept := kept_run sharded shard numbers meets
  refine ⟨kept.nodup, ?_, ?_⟩
  · intro id member
    obtain ⟨sequence, _below, form⟩ := kept.form id member
    apply UInt64.toNat_inj.mp
    rw [UInt64.toNat_mod, form, Nat.mul_add_mod_self_right,
      Nat.mod_eq_of_lt (UInt64.lt_iff_toNat_lt.mp shard)]
  · intro before now post after split engine id fresh
    have keeps := stepsMeet_iff.mp meets before (.createPost now post) after split
    rw [split] at meets numbers
    have early : (run (step cfg) {} before).Kept cfg :=
      kept_run sharded shard (fun op member => numbers op (List.mem_append_left _ member))
        meets.of_append
    exact bare_fresh sharded shard early keeps fresh

instance (cfg : Config) (engine : Engine) (more : Nat) : Decidable (Room cfg engine more) :=
  inferInstanceAs (Decidable (_ < _))

instance decidableKeepsNumbers (cfg : Config) (state : Numbering) (op : Op) :
    Decidable (KeepsNumbers cfg state op) :=
  match op with
  | .createPost _ _ => inferInstanceAs (Decidable (_ ∧ _ ∧ _))
  | .importPostBatch _ => inferInstanceAs (Decidable (_ ∧ _))
  | .restart => List.decidableBAll _ state.assigned
  | .getPost _ | .getPostByCommunityFile _ _ | .setPostContent _ _ | .setPostMeta _ _ _ _
  | .renderFullPostText _ _ | .updatePost _ _ | .updatePostTitle _ _ _ _ _
  | .deletePost _ _ _ _ _ | .undeletePost _ _ | .addComment _ _ | .updateComment _ _ _ _ _ _
  | .deleteComment _ _ _ _ _ _ | .undeleteComment _ _ | .votePost _ _ _ _ _ _ _
  | .resetVotes _ | .addCrosspost _ _ | .purgeUserComments _ _ | .purgeUserPosts _ _
  | .purgePost _ | .deleteCommunity _ | .flushDirtyDeltas
  | .rebuildSQLiteFromPebble => isTrue trivial

def threePosts : List Op :=
  [.createPost 100 firstPost,
    .createPost 100 { firstPost with postFile := utf8 "M.2.A" }, .restart,
    .createPost 200 { firstPost with postFile := utf8 "M.3.A" }]

theorem ids_never_reused_three_posts :
    ([2, 4, 6] : List UInt64).Nodup ∧
      StepsMeet (step { numShards := 2 }) (KeepsNumbers { numShards := 2 }) {} threePosts ∧
      (run (step { numShards := 2 }) {} threePosts).assigned = [2, 4, 6] := by
  have meets : StepsMeet (step { numShards := 2 }) (KeepsNumbers { numShards := 2 }) {}
      threePosts := by decide +kernel
  have assigned : (run (step { numShards := 2 }) {} threePosts).assigned = [2, 4, 6] := by
    decide +kernel
  have distinct := (ids_never_reused (by decide) (by decide) (by decide) meets).1
  rw [assigned] at distinct
  exact ⟨distinct, meets, assigned⟩

def purgedNewest : List Op :=
  [.createPost 100 firstPost, .purgePost 2, .restart,
    .createPost 200 { firstPost with postFile := utf8 "M.2.A" }]

theorem purged_id_given_again :
    purgedNewest.all Op.numbers = true ∧
      (run (step { numShards := 2 }) {} purgedNewest).assigned = [2, 2] ∧
      ¬ (run (step { numShards := 2 }) {} purgedNewest).assigned.Nodup := by
  have assigned : (run (step { numShards := 2 }) {} purgedNewest).assigned = [2, 2] := by
    decide +kernel
  refine ⟨by decide, assigned, ?_⟩
  rw [assigned]
  decide

end Numbering

end Pttbbs.PostSvc
