/-
Purging users, posts and communities.

A purge collects the keys it deletes by scanning prefixes and by decoding the
comments it meets.  The batches of a purge are applied after its scans; the
ranges of different posts do not meet, so posts can be purged one at a time.
-/

import Pttbbs.PostSvc.Editing

namespace Pttbbs.PostSvc

open Pttbbs.Lib

namespace Engine

/-! ### Users -/

def authorTargets (engine : Engine) (author : Bytes) (minTimestamp : Int64) :
    List (Bytes × UInt64 × UInt32) :=
  (seekPrefix engine.commentsDB (encodeAuthorCommentPrefix author)).filterMap (fun entry =>
    match decodeAuthorCommentKey entry.1 with
    | some (name, createdAt, postID, sequence) =>
        if name = author && minTimestamp ≤ createdAt then some (entry.1, postID, sequence)
        else none
    | none => none)

/-- Drop an index entry and mark its comment, as it was before the batch. -/
def purgeTarget (stored : Pebble) (commentsDB : Pebble) (target : Bytes × UInt64 × UInt32) :
    Pebble :=
  let commentsDB := commentsDB.delete target.1
  let key := encodeCommentKey target.2.1 target.2.2
  match (stored.get? key).bind (decodeRFC822Comment target.2.1 target.2.2) with
  | some comment =>
      commentsDB.set key (encodeRFC822Comment
        { comment with deletion := { comment.deletion with removed := true } })
  | none => commentsDB

/-- `minTimestamp` is the clock less the age the caller gives. -/
def purgeUserComments (engine : Engine) (author : Bytes) (minTimestamp : Int64) :
    Engine × Nat :=
  let targets := engine.authorTargets author minTimestamp
  ({ engine with
      commentsDB := targets.foldl (purgeTarget engine.commentsDB) engine.commentsDB },
    targets.length)

/-- The record of a purged post: its headers once each, `Encoding` first, and
`Deleted` set.  The source writes the other headers in no particular order. -/
def markDeleted (value : Bytes) : Bytes :=
  let record := decodeRFC822Post value
  let names := (record.1.map Prod.fst).dedup.filter (fun name =>
    name ≠ utf8 "Encoding" && name ≠ utf8 "Deleted")
  writeRecord (encodingHeader :: names.map (fun name =>
      (name, record.1.foldl (fun found header =>
        if header.1 = name then header.2 else found) [])) ++
    [(utf8 "Deleted", trueText)]) record.2

def purgeUserPosts (engine : Engine) (author : Bytes) (minTimestamp : Int64) : Engine × Nat :=
  let targets := (engine.metaDB.posts.entries.filter (fun entry =>
    entry.2.creatorName = author && minTimestamp ≤ entry.2.createdAt)).map Prod.fst
  ({ engine with
      metaDB := { engine.metaDB with posts := engine.metaDB.posts.deleteAll targets }
      postsDB := targets.foldl (fun postsDB id =>
        postsDB.modify (encodePostKey id) markDeleted) engine.postsDB },
    targets.length)

/-! ### Posts -/

def purgedPostKeys (engine : Engine) (postID : UInt64) : List Bytes :=
  encodePostKey postID ::
    (scanPrefix engine.postsDB (encodeCrosspostPrefix postID)).map Prod.fst

def authorKeyOf (postID : UInt64) (entry : Bytes × Bytes) : Option Bytes :=
  (decodeCommentKey entry.1).bind (fun key =>
    (decodeRFC822Comment postID key.2 entry.2).map (fun comment =>
      encodeAuthorCommentKey comment.creatorName comment.createdAt postID key.2))

def purgedCommentKeys (engine : Engine) (postID : UInt64) : List Bytes :=
  (scanPrefix engine.commentsDB (encodeCommentPrefix postID)).flatMap (fun entry =>
    (authorKeyOf postID entry).toList ++ [entry.1])

def purgedCommentHistory (engine : Engine) (postID : UInt64) (entry : Bytes × Bytes) :
    List Bytes :=
  match decodeCommentKey entry.1 with
  | some key =>
      (scanPrefix engine.historyDB (encodeCommentHistoryPrefix postID key.2)).map Prod.fst
  | none => []

def purgedHistoryKeys (engine : Engine) (postID : UInt64) : List Bytes :=
  (scanPrefix engine.historyDB (encodePostHistoryPrefix postID)).map Prod.fst ++
    (scanPrefix engine.commentsDB (encodeCommentPrefix postID)).flatMap
      (engine.purgedCommentHistory postID)

def purgedVoteKeys (engine : Engine) (postID : UInt64) : List Bytes :=
  (scanPrefix engine.votesDB (encodeVotePrefix postID)).map Prod.fst

/-- The Pebble records of a post, its sequence counter and its pending changes. -/
def purgeRecords (engine : Engine) (postID : UInt64) : Engine :=
  { engine with
    postsDB := engine.postsDB.deleteAll (engine.purgedPostKeys postID)
    commentsDB := engine.commentsDB.deleteAll (engine.purgedCommentKeys postID)
    votesDB := engine.votesDB.deleteAll (engine.purgedVoteKeys postID)
    historyDB := engine.historyDB.deleteAll (engine.purgedHistoryKeys postID)
    postSeqs := engine.postSeqs.delete postID
    dirtyDeltas := engine.dirtyDeltas.delete postID }

/-- Without a cache directory of its own the board file is the cache file. -/
def removeCacheFile (cfg : Config) (engine : Engine) (post : Post) : Engine :=
  if cfg.externalCache then engine
  else
    match boardFilePath post.community post.postFile with
    | some path => { engine with files := engine.files.delete path }
    | none => engine

def purgePostRows (metaDB : MetaDB) (post : Post) : MetaDB :=
  { metaDB with
    crossposts := metaDB.crossposts.keep (fun _ row =>
      !(row.sourcePostID = post.id ||
        (row.targetCommunity = post.community && row.targetPostFile = post.postFile)))
    posts := metaDB.posts.delete post.id }

def purgePostRecord (cfg : Config) (engine : Engine) (post : Post) : Engine :=
  let engine := engine.flushDirtyDeltas
  let engine := { engine with metaDB := purgePostRows engine.metaDB post }
  (engine.purgeRecords post.id).removeCacheFile cfg post

def purgePost (cfg : Config) (engine : Engine) (postID : UInt64) : Outcome Unit :=
  match engine.getPost cfg postID with
  | (engine, .error failure) => (engine, .error failure)
  | (engine, .ok post) => (engine.purgePostRecord cfg post, .ok ())

/-! ### Communities -/

def communityPosts (metaDB : MetaDB) (community : Bytes) : List UInt64 :=
  (metaDB.posts.entries.filter (fun entry => entry.2.community = community)).map Prod.fst

def deleteCommunityRows (metaDB : MetaDB) (community : Bytes) : MetaDB :=
  { metaDB with
    crossposts := metaDB.crossposts.keep (fun _ row =>
      !(row.targetCommunity = community ||
        (communityPosts metaDB community).contains row.sourcePostID))
    posts := metaDB.posts.keep (fun _ row => row.community ≠ community) }

/-- The board files stay: only the cache directory is cleaned. -/
def deleteCommunity (engine : Engine) (community : Bytes) : Outcome (Nat × Nat) :=
  if community = [] then (engine, .error .communityRequired)
  else
    let engine := engine.flushDirtyDeltas
    let posts := communityPosts engine.metaDB community
    let comments := (posts.map (fun id =>
      (scanPrefix engine.commentsDB (encodeCommentPrefix id)).length)).sum
    let engine := { engine with metaDB := deleteCommunityRows engine.metaDB community }
    (posts.foldl purgeRecords engine, .ok (posts.length, comments))

end Engine

end Pttbbs.PostSvc
