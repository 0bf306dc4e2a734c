/-
Verification of a backup.

The rows of SQLite and the records of Pebble are read side by side in the order of
the post numbers, and each row is compared with what a rebuild would make of the
records.  Comments, votes and crossposts are read through cursors that only move on.
-/

import Pttbbs.PostSvc.Tables

namespace Pttbbs.PostSvc

open Pttbbs.Lib

/-! ### The report -/

inductive VerifyError where
  | scanMeta
  | notInMeta (postID : UInt64)
  | tooManyErrors
deriving DecidableEq

inductive VerifyWarning where
  | commentsOfMissingPost
  | votesOfMissingPost
  | onlyInMeta
  | title
  | modified
  | identityFields
  | filemodeMoney
  | deletion
  | counters
  | countersOfDeletedPost
  | numCrossposts
  | crosspostsTableSize
deriving DecidableEq

structure VerifyReport where
  posts : Nat := 0
  comments : Nat := 0
  votes : Nat := 0
  errors : List VerifyError := []
  warnings : List (VerifyWarning × UInt64) := []
deriving DecidableEq

def maxVerifyExamples : Nat := 20

namespace VerifyReport

def error (report : VerifyReport) (found : VerifyError) : VerifyReport :=
  { report with errors := report.errors ++ [found] }

def warn (report : VerifyReport) (kind : VerifyWarning) (postID : UInt64) : VerifyReport :=
  { report with warnings := report.warnings ++ [(kind, postID)] }

def diff (report : VerifyReport) (kind : VerifyWarning) (postID : UInt64) (same : Bool) :
    VerifyReport :=
  if same then report else report.warn kind postID

def Clean (report : VerifyReport) : Prop := report.errors = [] ∧ report.warnings = []

instance (report : VerifyReport) : Decidable report.Clean := inferInstanceAs (Decidable (_ ∧ _))

end VerifyReport

/-! ### Cursors -/

structure CursorEntry where
  postID : UInt64
  key : Bytes
  value : Bytes

/-- The records under a letter in key order; shorter keys are skipped. -/
def idCursor (letter : UInt8) (db : Pebble) : List CursorEntry :=
  db.entries.filterMap fun entry =>
    if entry.1.head? = some letter ∧ 9 ≤ entry.1.length then
      some ⟨uint64 ((entry.1.drop 1).take 8), entry.1, entry.2⟩
    else none

structure Cursors where
  comments : List CursorEntry
  votes : List CursorEntry
  crossposts : List CursorEntry

structure PostAggregate where
  comments : Nat := 0
  upvotes : Nat := 0
  downvotes : Nat := 0
  crossposts : Nat := 0
  commentModified : Int64 := 0
deriving DecidableEq

def aggregateComment (id : UInt64) (state : PostAggregate × VerifyReport) (entry : CursorEntry) :
    PostAggregate × VerifyReport :=
  if entry.key.length = 13 then
    if entry.postID < id then
      (state.1, state.2.warn .commentsOfMissingPost entry.postID)
    else
      let modified :=
        match decodeRFC822Comment entry.postID (uint32 (entry.key.drop 9)) entry.value with
        | some comment => max state.1.commentModified comment.modifiedAt
        | none => state.1.commentModified
      ({ state.1 with comments := state.1.comments + 1, commentModified := modified },
        { state.2 with comments := state.2.comments + 1 })
  else state

def aggregateVote (id : UInt64) (state : PostAggregate × VerifyReport) (entry : CursorEntry) :
    PostAggregate × VerifyReport :=
  if entry.postID < id then (state.1, state.2.warn .votesOfMissingPost entry.postID)
  else if entry.value = [] then state
  else
    let report := { state.2 with votes := state.2.votes + 1 }
    if voteOfValue entry.value = voteUp then
      ({ state.1 with upvotes := state.1.upvotes + 1 }, report)
    else if voteOfValue entry.value = voteDown then
      ({ state.1 with downvotes := state.1.downvotes + 1 }, report)
    else (state.1, report)

def aggregateCrosspost (id : UInt64) (aggregate : PostAggregate) (entry : CursorEntry) :
    PostAggregate :=
  if entry.postID = id then { aggregate with crossposts := aggregate.crossposts + 1 }
  else aggregate

/-- Consume the records up to a post; those of smaller numbers belong to no post. -/
def aggregate (id : UInt64) (cursors : Cursors) (report : VerifyReport) :
    PostAggregate × Cursors × VerifyReport :=
  let upTo := fun entry : CursorEntry => decide (entry.postID ≤ id)
  let state := (cursors.comments.takeWhile upTo).foldl (aggregateComment id) ({}, report)
  let state := (cursors.votes.takeWhile upTo).foldl (aggregateVote id) state
  ((cursors.crossposts.takeWhile upTo).foldl (aggregateCrosspost id) state.1,
    ⟨cursors.comments.dropWhile upTo, cursors.votes.dropWhile upTo,
      cursors.crossposts.dropWhile upTo⟩, state.2)

/-! ### Comparing a post -/

/-- The difference in the counters has a name of its own for imported deleted posts. -/
def counterKind (row : PostRow) (found : PostAggregate) : VerifyWarning :=
  if row.deletion.deletedOrRemoved && found.comments = 0 && found.upvotes = 0 &&
      found.downvotes = 0 then .countersOfDeletedPost
  else .counters

def verifiedModified (headers : Headers) (found : PostAggregate) : Int64 :=
  let createdAt := parseInt64 (field headers "CreatedAt")
  let modified := parseInt64 (field headers "Modified")
  let modified := if modified = 0 then createdAt else modified
  if modified < found.commentModified then found.commentModified else modified

def comparePost (report : VerifyReport) (id : UInt64) (row : PostRow) (value : Bytes)
    (found : PostAggregate) : VerifyReport :=
  let headers := (decodeRFC822Post value).1
  let deletion := deletionFromRFC822 headers
  let report :=
    if row.title ≠ field headers "Title" then report.warn .title id
    else report.diff .modified id (row.modified = verifiedModified headers found)
  let report := report.diff .identityFields id
    (row.community = field headers "Community" && row.postFile = field headers "PostFile" &&
      row.creatorName = field headers "CreatorName" &&
      row.parentID = (parseInt64 (field headers "ParentID")).toUInt64 &&
      row.creatorID = parseUint64 (field headers "CreatorID") &&
      row.createdAt = parseInt64 (field headers "CreatedAt"))
  let report := report.diff .filemodeMoney id
    (row.filemode = parseInt64 (field headers "Filemode") &&
      row.money = parseInt64 (field headers "Money"))
  let report := report.diff .deletion id (row.deletion = deletion)
  let report := report.diff (counterKind row found) id
    (row.upvotes = found.upvotes && row.downvotes = found.downvotes &&
      row.numComments = found.comments)
  report.diff .numCrossposts id (row.numCrossposts = found.crossposts)

/-! ### The merge -/

/-- `SELECT … FROM posts ORDER BY id`: SQLite orders by the signed number. -/
def metaRows (metaDB : MetaDB) : List (UInt64 × PostRow) :=
  metaDB.posts.entries.filter (fun entry => !bindable entry.1) ++
    metaDB.posts.entries.filter (fun entry => bindable entry.1)

structure Merge where
  posts : List (Bytes × Bytes)
  /-- The row that was read last, while there is one. -/
  row : Option (UInt64 × PostRow)
  rows : List (UInt64 × PostRow)
  cursors : Cursors
  report : VerifyReport

/-- A negative number is refused for a column that is read as unsigned. -/
def nextRow (merge : Merge) : Merge :=
  match merge.rows with
  | [] => { merge with row := none }
  | entry :: rest =>
      if bindable entry.1 && bindable entry.2.parentID then
        { merge with row := some entry, rows := rest }
      else { merge with row := none, rows := rest, report := merge.report.error .scanMeta }

def mergeMissing (merge : Merge) (id : UInt64) (posts : List (Bytes × Bytes)) : Merge × Bool :=
  let (_, cursors, report) := aggregate id merge.cursors
    { merge.report with posts := merge.report.posts + 1 }
  let report := report.error (.notInMeta id)
  if report.errors.length > maxVerifyExamples then
    ({ merge with posts := posts, cursors := cursors, report := report.error .tooManyErrors }, true)
  else ({ merge with posts := posts, cursors := cursors, report := report }, false)

def mergeOnlyRow (merge : Merge) (id : UInt64) : Merge :=
  nextRow { merge with report := merge.report.warn .onlyInMeta id }

def mergeBoth (merge : Merge) (id : UInt64) (row : PostRow) (value : Bytes)
    (posts : List (Bytes × Bytes)) : Merge :=
  let (found, cursors, report) := aggregate id merge.cursors
    { merge.report with posts := merge.report.posts + 1 }
  nextRow { merge with
    posts := posts, cursors := cursors, report := comparePost report id row value found }

/-- The loop; every round takes a post or a row.  The flag tells that it gave up. -/
def mergeLoop : Nat → Merge → Merge × Bool
  | 0, merge => (merge, false)
  | rounds + 1, merge =>
      match merge.posts, merge.row with
      | [], none => (merge, false)
      | [], some row => mergeLoop rounds (mergeOnlyRow merge row.1)
      | post :: posts, row =>
          match decodePostKey post.1 with
          | none => mergeLoop rounds { merge with posts := posts }
          | some id =>
              match row with
              | none =>
                  match mergeMissing merge id posts with
                  | (merge, true) => (merge, true)
                  | (merge, false) => mergeLoop rounds merge
              | some row =>
                  if id < row.1 then
                    match mergeMissing merge id posts with
                    | (merge, true) => (merge, true)
                    | (merge, false) => mergeLoop rounds merge
                  else if row.1 < id then mergeLoop rounds (mergeOnlyRow merge row.1)
                  else mergeLoop rounds (mergeBoth merge id row.2 post.2 posts)

namespace Engine

def cursors (engine : Engine) : Cursors :=
  ⟨idCursor letterC engine.commentsDB, idCursor letterV engine.votesDB,
    idCursor letterX engine.postsDB⟩

def lettered (letter : UInt8) (db : Pebble) : List (Bytes × Bytes) :=
  db.entries.filter fun entry => entry.1.head? = some letter

def mergeStart (engine : Engine) : Merge :=
  nextRow ⟨lettered letterP engine.postsDB, none, metaRows engine.metaDB, engine.cursors, {}⟩

def compareMetaWithPebble (engine : Engine) : VerifyReport :=
  let start := engine.mergeStart
  match mergeLoop (start.posts.length + start.rows.length + 1) start with
  | (merge, true) => merge.report
  | (merge, false) =>
      let (_, _, report) := aggregate 0xffffffffffffffff merge.cursors merge.report
      if engine.metaDB.crossposts.entries.length = (lettered letterX engine.postsDB).length then
        report
      else report.warn .crosspostsTableSize 0

end Engine

end Pttbbs.PostSvc
