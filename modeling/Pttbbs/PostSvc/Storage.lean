/-
The state of one storage engine.

Four Pebble databases are ordered maps from byte keys to byte values.  SQLite
holds the posts and crossposts tables with their primary keys, the automatic id
counters, and the unique index on community and post file.  Sequence counters
and pending score changes are in memory; board files are on disk.
-/

import Pttbbs.PostSvc.Keys
import Pttbbs.PostSvc.Rfc822
import Pttbbs.PostSvc.Render

namespace Pttbbs.PostSvc

open Pttbbs.Lib

inductive EngineError where
  | noRows
  | pebbleNotFound
  | unbindable
  | constraint
  | full
  | conflict (latestModified : Int64)
  | communityRequired
  | invalidComment
  | wrapped (text : String) (inner : EngineError)
deriving DecidableEq

/-! ### Pebble -/

abbrev Pebble := ByteStore

/-! ### SQLite -/

structure PostRow where
  parentID : UInt64
  community : Bytes
  postFile : Bytes
  title : Bytes
  creatorName : Bytes
  creatorID : PersonID
  createdAt : Int64
  modified : Int64
  filemode : Int64
  upvotes : Int
  downvotes : Int
  numComments : Int
  numCrossposts : Int
  encoding : Bytes
  deletion : Deletion
  money : Int64
deriving DecidableEq

structure CrosspostRow where
  sourcePostID : UInt64
  targetCommunity : Bytes
  targetPostFile : Bytes
  creatorName : Bytes
  creatorID : PersonID
  createdAt : Int64
deriving DecidableEq

structure MetaDB where
  posts : OrderedMap UInt64 PostRow := OrderedMap.empty
  /-- `sqlite_sequence` of the posts table. -/
  postsSequence : UInt64 := 0
  crossposts : OrderedMap UInt64 CrosspostRow := OrderedMap.empty
  crosspostsSequence : UInt64 := 0
deriving DecidableEq

/-- The driver refuses an unsigned value with its top bit set. -/
def bindable (value : UInt64) : Bool := value < 0x8000000000000000

namespace MetaDB

/-- `SELECT id FROM posts WHERE community = ? AND post_file = ?`. -/
def findFile (metaDB : MetaDB) (community postFile : Bytes) : Option UInt64 :=
  (metaDB.posts.entries.find? (fun entry =>
    entry.2.community = community && entry.2.postFile = postFile)).map Prod.fst

def updatePost (metaDB : MetaDB) (id : UInt64) (change : PostRow → PostRow) : MetaDB :=
  { metaDB with posts := metaDB.posts.modify id change }

def nextID (sequence : UInt64) : Except EngineError UInt64 :=
  if sequence < 0x7fffffffffffffff then .ok (sequence + 1) else .error .full

def chooseID (sequence : UInt64) : Option UInt64 → Except EngineError UInt64
  | some id => if bindable id then .ok id else .error .unbindable
  | none => nextID sequence

def rowBindable (row : PostRow) : Bool :=
  bindable row.parentID && bindable row.creatorID && bindable row.deletion.modPersonID

def putPost (metaDB : MetaDB) (id : UInt64) (row : PostRow) : MetaDB :=
  { metaDB with
    posts := metaDB.posts.set id row
    postsSequence := max metaDB.postsSequence id }

/-- `INSERT INTO posts`: fails on a used id and on a used community and file. -/
def insertPost (metaDB : MetaDB) (given : Option UInt64) (row : PostRow) :
    Except EngineError (MetaDB × UInt64) :=
  if rowBindable row then
    match chooseID metaDB.postsSequence given with
    | .error failure => .error failure
    | .ok id =>
        if (metaDB.posts.get? id).isSome || (metaDB.findFile row.community row.postFile).isSome then
          .error .constraint
        else .ok (metaDB.putPost id row, id)
  else .error .unbindable

def insertCrosspost (metaDB : MetaDB) (row : CrosspostRow) :
    Except EngineError (MetaDB × UInt64) :=
  if bindable row.sourcePostID && bindable row.creatorID then
    match nextID metaDB.crosspostsSequence with
    | .error failure => .error failure
    | .ok id =>
        .ok ({ metaDB with
          crossposts := metaDB.crossposts.set id row
          crosspostsSequence := id }, id)
  else .error .unbindable

def importOver (stored row : PostRow) : PostRow :=
  { stored with
    title := row.title
    creatorName := row.creatorName
    creatorID := row.creatorID
    createdAt := row.createdAt
    modified := row.modified
    filemode := row.filemode
    upvotes := row.upvotes
    downvotes := row.downvotes
    numComments := row.numComments
    numCrossposts := row.numCrossposts
    encoding := row.encoding
    money := row.money }

/-- The import statement.  The conflict on community and file is resolved before
the primary key is looked at; the automatic counter moves in both cases. -/
def upsertPost (metaDB : MetaDB) (given : Option UInt64) (row : PostRow) :
    Except EngineError (MetaDB × UInt64) :=
  if rowBindable row then
    match chooseID metaDB.postsSequence given with
    | .error failure => .error failure
    | .ok id =>
        match metaDB.findFile row.community row.postFile with
        | some existing =>
            .ok ({ metaDB with
              posts := metaDB.posts.modify existing (fun stored => importOver stored row)
              postsSequence := max metaDB.postsSequence id }, existing)
        | none =>
            if (metaDB.posts.get? id).isSome then .error .constraint
            else .ok (metaDB.putPost id row, id)
  else .error .unbindable

end MetaDB

/-! ### The engine -/

structure PostDelta where
  upvotes : Int := 0
  downvotes : Int := 0
  comments : Int := 0
deriving DecidableEq

structure Engine where
  postsDB : Pebble := OrderedMap.empty
  commentsDB : Pebble := OrderedMap.empty
  votesDB : Pebble := OrderedMap.empty
  historyDB : Pebble := OrderedMap.empty
  metaDB : MetaDB := {}
  postSeqCounter : UInt64 := 0
  postSeqs : OrderedMap UInt64 UInt32 := OrderedMap.empty
  dirtyDeltas : OrderedMap UInt64 PostDelta := OrderedMap.empty
  files : OrderedMap Bytes Bytes := OrderedMap.empty
deriving DecidableEq

abbrev Outcome (α : Type) := Engine × Except EngineError α

/-- `BoardFilePath`; a post without a file name has no board file. -/
def boardFilePath (community postFile : Bytes) : Option Bytes :=
  if postFile = [] || postFile = utf8 "-" then none
  else
    match community with
    | [] => some (utf8 "boards/" ++ postFile)
    | initial :: _ =>
        let upper := if 97 ≤ initial && initial ≤ 122 then initial - 32 else initial
        some (utf8 "boards/" ++ [upper, 47] ++ community ++ [47] ++ postFile)

namespace Engine

def boardFile (engine : Engine) (post : Post) : Option Bytes :=
  (boardFilePath post.community post.postFile).bind engine.files.get?

def writeBoardFile (engine : Engine) (post : Post) (bytes : Bytes) : Engine :=
  match boardFilePath post.community post.postFile with
  | some path => { engine with files := engine.files.set path bytes }
  | none => engine

def addDelta (engine : Engine) (postID : UInt64) (change : PostDelta) : Engine :=
  let pending := (engine.dirtyDeltas.get? postID).getD {}
  { engine with
    dirtyDeltas := engine.dirtyDeltas.set postID
      { upvotes := pending.upvotes + change.upvotes
        downvotes := pending.downvotes + change.downvotes
        comments := pending.comments + change.comments } }

end Engine

end Pttbbs.PostSvc
