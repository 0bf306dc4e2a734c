/-
Import, restart and the rebuild of SQLite from Pebble.

The import writes whole posts with their comments, votes and crossposts.  The
rebuild empties both tables, inserts a row for every record, and then sets the
counters of every post that the other records mention.  Both run in one SQLite
transaction, which a failure rolls back.
-/

import Pttbbs.PostSvc.Purge

namespace Pttbbs.PostSvc

open Pttbbs.Lib

/-! ### Import -/

structure ImportedPostData where
  post : Post
  comments : List Comment := []
  crossposts : List CrosspostRecord := []
  votes : List VoteRecord := []
deriving DecidableEq

/-- The post with the counts of its parts.  A deleted post without comments
keeps the count it has. -/
def ImportedPostData.prepared (item : ImportedPostData) : Post :=
  { item.post with
    numComments :=
      if item.comments ≠ [] || !item.post.deletion.deletedOrRemoved then item.comments.length
      else item.post.numComments
    numCrossposts := item.crossposts.length
    title := headerValue item.post.title
    encoding := if item.post.encoding = [] then utf8Name else item.post.encoding }

namespace Engine

def importedRow (post : Post) : PostRow := { createdRow post with deletion := post.deletion }

def importComment (postID : UInt64) (engine : Engine) (numbered : Comment × Nat) : Engine :=
  let comment :=
    { numbered.1 with postID := postID, sequence := UInt32.ofNat (numbered.2 + 1) }
  let engine := engine.setCommentRecord comment
  { engine with
    commentsDB := engine.commentsDB.set (encodeAuthorCommentKey comment.creatorName
      comment.createdAt postID comment.sequence) [] }

def importVote (postID : UInt64) (engine : Engine) (record : VoteRecord) : Engine :=
  if record.vote = voteUp || record.vote = voteDown then
    { engine with
      votesDB := engine.votesDB.set (encodeVoteKey postID record.personName)
        (encodeVoteValue record.vote record.personID record.createdAt record.ip) }
  else engine

/-- A crosspost whose row is refused is skipped. -/
def importCrosspost (postID : UInt64) (engine : Engine) (numbered : CrosspostRecord × Nat) :
    Engine :=
  let crosspost := { numbered.1 with sourcePostID := postID }
  match engine.metaDB.insertCrosspost (crosspostRow crosspost) with
  | .error _ => engine
  | .ok (metaDB, id) =>
      { engine with metaDB := metaDB }.setCrosspostRecord (UInt32.ofNat (numbered.2 + 1))
        { crosspost with id := id }

def importPost (cfg : Config) (engine : Engine) (item : ImportedPostData) : Outcome UInt64 :=
  let post := item.prepared
  let (engine, given) := engine.candidateID cfg post
  match engine.metaDB.upsertPost given (importedRow post) with
  | .error failure => (engine, .error (.wrapped "insert post failed" failure))
  | .ok (metaDB, id) =>
      let engine := { engine with metaDB := metaDB }.setPostRecord { post with id := id }
      let engine := item.comments.zipIdx.foldl (importComment id) engine
      let engine := item.votes.foldl (importVote id) engine
      (item.crossposts.zipIdx.foldl (importCrosspost id) engine, .ok id)

def importPosts (cfg : Config) (engine : Engine) :
    List ImportedPostData → Outcome (List (UInt64 × ImportedPostData))
  | [] => (engine, .ok [])
  | item :: rest =>
      match engine.importPost cfg item with
      | (engine, .error failure) => (engine, .error failure)
      | (engine, .ok id) =>
          match importPosts cfg engine rest with
          | (engine, .error failure) => (engine, .error failure)
          | (engine, .ok imported) => (engine, .ok ((id, item) :: imported))

/-- A failed batch leaves only the shard's id counter behind. -/
def importPostBatch (cfg : Config) (engine : Engine) (batch : List ImportedPostData) :
    Outcome (List UInt64) :=
  match engine.importPosts cfg batch with
  | (reached, .error failure) =>
      ({ engine with postSeqCounter := reached.postSeqCounter }, .error failure)
  | (engine, .ok imported) =>
      ({ engine with
          postSeqs := imported.foldl (fun postSeqs entry =>
            postSeqs.set entry.1 (UInt32.ofNat entry.2.comments.length)) engine.postSeqs },
        .ok (imported.map Prod.fst))

/-! ### Restart -/

/-- `SELECT COALESCE(MAX(id), 0) FROM posts`. -/
def maxPostID (metaDB : MetaDB) : UInt64 :=
  match metaDB.posts.entries.getLast? with
  | some entry => entry.1
  | none => 0

def openEngine (cfg : Config) (engine : Engine) : Engine :=
  { engine with
    postSeqCounter := if 1 < cfg.numShards then maxPostID engine.metaDB / cfg.numShards else 0
    postSeqs := OrderedMap.empty
    dirtyDeltas := OrderedMap.empty }

def restart (cfg : Config) (engine : Engine) : Engine := engine.flushDirtyDeltas.openEngine cfg

/-! ### Rebuild -/

def rebuiltRow (headers : Headers) : PostRow :=
  let createdAt := parseInt64 (field headers "CreatedAt")
  let modified := parseInt64 (field headers "Modified")
  { parentID := parseUint64 (field headers "ParentID")
    community := field headers "Community"
    postFile := field headers "PostFile"
    title := field headers "Title"
    creatorName := field headers "CreatorName"
    creatorID := parseUint64 (field headers "CreatorID")
    createdAt := createdAt
    modified := if modified = 0 then createdAt else modified
    filemode := parseInt64 (field headers "Filemode")
    upvotes := 0
    downvotes := 0
    numComments := 0
    numCrossposts := 0
    encoding := utf8Name
    deletion := deletionFromRFC822 headers
    money := parseInt64 (field headers "Money") }

def restoreEntry (metaDB : MetaDB) (entry : Bytes × Bytes) : Except EngineError MetaDB :=
  if entry.1.head? = some letterX then
    (metaDB.insertCrosspost (crosspostRow (decodeRFC822Crosspost entry.2))).map Prod.fst
  else
    match decodePostKey entry.1 with
    | none => .ok metaDB
    | some id =>
        (metaDB.insertPost (some id) (rebuiltRow (decodeRFC822Post entry.2).1)).map Prod.fst

def restoreEntries (metaDB : MetaDB) : List (Bytes × Bytes) → Except EngineError MetaDB
  | [] => .ok metaDB
  | entry :: rest =>
      match restoreEntry metaDB entry with
      | .error failure => .error failure
      | .ok metaDB => restoreEntries metaDB rest

def crosspostSources (engine : Engine) : List UInt64 :=
  (engine.postsDB.entries.filter (fun entry => entry.1.head? = some letterX)).map
    (fun entry => (decodeRFC822Crosspost entry.2).sourcePostID)

def commentedPosts (engine : Engine) : List UInt64 :=
  engine.commentsDB.entries.filterMap (fun entry => (decodeCommentKey entry.1).map Prod.fst)

def votedPosts (engine : Engine) (vote : VoteType) : List UInt64 :=
  (engine.votesDB.entries.filter (fun entry => voteOfValue entry.2 = vote)).filterMap
    (fun entry => (decodeVoteKey entry.1).map Prod.fst)

def commentModified (engine : Engine) (postID : UInt64) : Int64 :=
  (engine.commentsDB.entries.filterMap (fun entry =>
    (decodeCommentKey entry.1).bind (fun key =>
      if key.1 = postID then
        (decodeRFC822Comment key.1 key.2 entry.2).map Comment.modifiedAt
      else none))).foldl max 0

def countedPosts (engine : Engine) : List UInt64 :=
  engine.commentedPosts ++ engine.votedPosts voteUp ++ engine.votedPosts voteDown ++
    engine.crosspostSources

def recount (engine : Engine) (id : UInt64) (row : PostRow) : PostRow :=
  if engine.countedPosts.contains id then
    { row with
      upvotes := (engine.votedPosts voteUp).count id
      downvotes := (engine.votedPosts voteDown).count id
      numComments := engine.commentedPosts.count id
      numCrossposts := engine.crosspostSources.count id
      modified := max row.modified (engine.commentModified id) }
  else row

def rebuildSQLiteFromPebble (engine : Engine) : Outcome (Nat × Nat) :=
  let emptied := { engine.metaDB with
    posts := OrderedMap.empty, crossposts := OrderedMap.empty }
  match restoreEntries emptied engine.postsDB.entries with
  | .error failure => (engine, .error failure)
  | .ok metaDB =>
      if engine.countedPosts.all bindable then
        ({ engine with
            metaDB := { metaDB with posts := metaDB.posts.mapValues engine.recount } },
          .ok (metaDB.posts.count (fun entry => !entry.2.deletion.deletedOrRemoved),
            engine.commentedPosts.length))
      else (engine, .error .unbindable)

end Engine

end Pttbbs.PostSvc
