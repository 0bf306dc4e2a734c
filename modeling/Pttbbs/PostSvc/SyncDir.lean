/-
Writing a board's posts back to its `.DIR`.

A `.DIR` is a file of records of 128 bytes.  The records of known posts get their
counters, or all their fields; records of deleted posts can be removed, and records of
posts that have none can be added at their time.
-/

import Pttbbs.Lib.Fields
import Pttbbs.PostSvc.DeletedTitle
import Pttbbs.PostSvc.Engine

namespace Pttbbs.PostSvc

open Pttbbs.Lib

def fileHeaderSize : Nat := 128

/-! ### Fields of a record -/

def cString (field : Bytes) : Bytes := field.takeWhile (· ≠ 0)

/-- What `setString` makes of a field: the string padded with zeros, unless the field
already holds it. -/
def stringField (value field : Bytes) : Bytes :=
  let value := value.take (field.length - 1)
  if cString field = value then field
  else value ++ List.replicate (field.length - value.length) 0

def bytesField (value field : Bytes) : Bytes :=
  value.take field.length ++ field.drop value.length

theorem length_stringField (value field : Bytes) :
    (stringField value field).length = field.length := by
  unfold stringField
  dsimp only
  split
  · rfl
  · rw [List.length_append, List.length_replicate, List.length_take]
    omega

theorem stringField_stringField (value field : Bytes) :
    stringField value (stringField value field) = stringField value field := by
  by_cases held : cString field = value.take (field.length - 1)
  · have same : stringField value field = field := if_pos held
    rw [same, same]
  · have padded : stringField value field = value.take (field.length - 1) ++
        List.replicate (field.length - (value.take (field.length - 1)).length) 0 := if_neg held
    conv_lhs => rw [stringField]
    rw [length_stringField]
    split
    · rfl
    · exact padded.symm

theorem length_bytesField (value field : Bytes) :
    (bytesField value field).length = field.length := by
  unfold bytesField
  rw [List.length_append, List.length_take, List.length_drop]
  omega

theorem bytesField_bytesField (value field : Bytes) :
    bytesField value (bytesField value field) = bytesField value field := by
  conv_lhs => rw [bytesField]
  rw [length_bytesField]
  unfold bytesField
  congr 1
  by_cases short : value.length ≤ field.length
  · rw [List.take_of_length_le short, List.drop_left]
  · rw [List.drop_of_length_le, List.drop_of_length_le]
    · omega
    · rw [List.length_append, List.length_take, List.length_drop]
      omega

def setString (off len : Nat) (value : Bytes) : FieldWrite UInt8 where
  off := off
  len := len
  write := stringField value
  length_write := length_stringField value
  write_write := stringField_stringField value

def putLittle (off len value : Nat) : FieldWrite UInt8 where
  off := off
  len := len
  write := bytesField (bigEndian len value).reverse
  length_write := length_bytesField _
  write_write := bytesField_bytesField _

/-! ### Names and values -/

/-- The name of the post that a record stands for, and whether it was safely deleted. -/
def isSafeDeletedFilename (name : Bytes) : Bytes × Bool :=
  if 2 < name.length && name.take 2 = utf8 ".d" then (utf8 "M." ++ name.drop 2, true)
  else (name, false)

def scoreFromVotes (upvotes downvotes : Int) : Int16 :=
  let score := upvotes - downvotes
  if 32767 < score then 32767
  else if score < -32768 then -32768
  else Int16.ofInt score

def commentsFromCount (count : Int) : UInt16 :=
  if 65535 < count then 65535
  else if count < 0 then 0
  else UInt16.ofNat count.toNat

/-- The cut of a Big5 string; a byte from 0x80 on starts a character of two. -/
def big5Cut (bytes : Bytes) (limit : Nat) : Nat → Nat → Nat
  | 0, index => index
  | rounds + 1, index =>
      if index < limit then
        let step := if 0x80 ≤ bytes.getD index 0 then 2 else 1
        if limit < index + step then index else big5Cut bytes limit rounds (index + step)
      else index

/-- The cut of a UTF-8 string, moved back to the start of a character. -/
def runeCut (bytes : Bytes) : Nat → Nat
  | 0 => 0
  | index + 1 =>
      if bytes.getD (index + 1) 0 &&& 0xc0 ≠ 0x80 then index + 1 else runeCut bytes index

def truncateStorage (bytes : Bytes) (limit : Nat) (isBig5 : Bool) : Bytes :=
  if bytes.length ≤ limit then bytes
  else if isBig5 then bytes.take (big5Cut bytes limit limit 0)
  else bytes.take (runeCut bytes limit)

structure SyncEnv where
  encode : Bytes → Bytes
  monthDay : Int64 → Nat × Nat
  fileExists : Bytes → Bool

/-- `%2d/%02d`, or blanks for a time that cannot be right. -/
def fhdrDate (env : SyncEnv) (time : Int64) : Bytes :=
  if time ≤ 740000000 then utf8 "     "
  else
    let month := formatNat ((env.monthDay time).1 % 100)
    let day := formatNat ((env.monthDay time).2 % 100)
    List.replicate (2 - month.length) 32 ++ month ++ 47 :: (List.replicate (2 - day.length) 48 ++
      day)

def packMulti (post : Post) : UInt32 :=
  if post.filemode &&& filePetition ≠ 0 then 0
  else if post.filemode &&& fileAnonymous ≠ 0 then post.creatorID.toUInt32
  else post.money.toUInt64.toUInt32

def Post.deletedOrRemoved (post : Post) : Bool := post.deletion.deletedOrRemoved

def recordName (post : Post) : Bytes :=
  if post.deletedOrRemoved then utf8 ".d" ++ post.postFile.drop 2 else post.postFile

def countFields (post : Post) : List (FieldWrite UInt8) :=
  [putLittle 32 2 (scoreFromVotes post.upvotes post.downvotes).toUInt16.toNat,
    putLittle 126 2 (commentsFromCount post.numComments).toNat]

def recordFields (env : SyncEnv) (isBig5 : Bool) (post : Post) : List (FieldWrite UInt8) :=
  let deleted := post.deletedOrRemoved
  let modified :=
    if deleted && 0 < post.deletion.deletedAt then post.deletion.deletedAt else post.modified
  let title := if deleted then deletedTitle post else post.title
  let title := if isBig5 then env.encode title else title
  let created := if stampTime post.postFile = 0 then post.createdAt else stampTime post.postFile
  [setString 0 28 (recordName post),
    putLittle 28 4 modified.toUInt64.toUInt32.toNat,
    setString 34 14 (if deleted then safeDelOwner else post.creatorName),
    setString 48 6 (fhdrDate env created),
    setString 54 65 (truncateStorage title 64 isBig5),
    putLittle 120 4 (packMulti post).toNat,
    putLittle 124 2 post.filemode.toUInt64.toUInt16.toNat] ++ countFields post

def setCounts (post : Post) (record : Bytes) : Bytes :=
  FieldWrite.applyAll (countFields post) record

def fillRecord (env : SyncEnv) (isBig5 : Bool) (post : Post) (record : Bytes) : Bytes :=
  FieldWrite.applyAll (recordFields env isBig5 post) record

/-! ### One run -/

structure SyncDirOptions where
  isBig5 : Bool := false
  dryRun : Bool := false
  full : Bool := false
  prune : Bool := false
  addMissing : Bool := false

structure SyncDirStats where
  records : Nat := 0
  matched : Nat := 0
  updated : Nat := 0
  pruned : Nat := 0
  added : Nat := 0
  addedNoFile : Nat := 0
deriving DecidableEq

structure DirEntry where
  record : Bytes
  time : Int64
  changed : Bool

def recordKey (record : Bytes) : Bytes × Bool :=
  isSafeDeletedFilename (cString (slice 0 28 record))

def byFile (posts : List Post) (name : Bytes) : Option Post :=
  posts.foldl (fun found post => if post.postFile = name then some post else found) none

structure SyncState where
  stats : SyncDirStats := {}
  seen : List Bytes := []
  entries : List DirEntry := []

def syncedRecord (env : SyncEnv) (opts : SyncDirOptions) (found : Option Post) (old : Bytes) :
    Bytes :=
  match found with
  | none => old
  | some post => if opts.full then fillRecord env opts.isBig5 post old else setCounts post old

def syncRecord (env : SyncEnv) (opts : SyncDirOptions) (posts : List Post) (state : SyncState)
    (old : Bytes) : SyncState :=
  let (key, safeDeleted) := recordKey old
  let found := byFile posts key
  let record := syncedRecord env opts found old
  let stats := { state.stats with
    records := state.stats.records + 1
    matched := state.stats.matched + if found.isSome then 1 else 0 }
  let seen := key :: state.seen
  if opts.prune && (safeDeleted || found.any Post.deletedOrRemoved) then
    ⟨{ stats with pruned := stats.pruned + 1 }, seen, state.entries⟩
  else
    let entry := ⟨record, stampTime key, record ≠ old⟩
    ⟨{ stats with updated := stats.updated + if entry.changed then 1 else 0 }, seen,
      state.entries ++ [entry]⟩

def missingEntry (env : SyncEnv) (opts : SyncDirOptions) (post : Post) : DirEntry where
  record := fillRecord env opts.isBig5 post (List.replicate fileHeaderSize 0)
  time := if stampTime post.postFile = 0 then post.createdAt else stampTime post.postFile
  changed := true

def missingPosts (posts : List Post) (seen : List Bytes) : List Post :=
  posts.filter fun post => !(seen.contains post.postFile || post.deletedOrRemoved)

/-- `sort.SliceStable`. -/
def sortByTime (missing : List DirEntry) : List DirEntry :=
  missing.mergeSort fun left right => left.time ≤ right.time

def mergeByTime : List DirEntry → List DirEntry → List DirEntry
  | [], missing => missing
  | entry :: entries, missing =>
      let older :=
        if 0 < entry.time then missing.takeWhile fun other => other.time < entry.time else []
      older ++ entry :: mergeByTime entries (missing.drop older.length)

def writeInPlace (data : Bytes) (entries : List DirEntry) : Bytes :=
  entries.zipIdx.foldl (fun data entry =>
    if entry.1.changed then writeAt (entry.2 * fileHeaderSize) entry.1.record data else data) data

def replaceDir (entries : List DirEntry) : Bytes := (entries.map DirEntry.record).flatten

def addMissing (env : SyncEnv) (opts : SyncDirOptions) (posts : List Post) (state : SyncState) :
    SyncState :=
  let missing := missingPosts posts state.seen
  { state with
    stats := { state.stats with
      added := state.stats.added + missing.length
      addedNoFile := state.stats.addedNoFile +
        missing.countP fun post => !env.fileExists post.postFile }
    entries := mergeByTime state.entries (sortByTime (missing.map (missingEntry env opts))) }

/-- The reports and the new `.DIR`, or nothing for a file of a wrong size. -/
def syncDir (env : SyncEnv) (opts : SyncDirOptions) (posts : List Post) (data : Bytes) :
    Option (SyncDirStats × Bytes) :=
  if data.length % fileHeaderSize ≠ 0 then none
  else
    let state := (chunksOf fileHeaderSize data).foldl (syncRecord env opts posts) {}
    let state := if opts.addMissing then addMissing env opts posts state else state
    if opts.dryRun || state.stats.updated + state.stats.pruned + state.stats.added = 0 then
      some (state.stats, data)
    else if !opts.prune && !opts.addMissing then
      some (state.stats, writeInPlace data state.entries)
    else some (state.stats, replaceDir state.entries)

namespace Engine

/-- The posts of a board with all pending counts, deleted ones included. -/
def listPostMeta (engine : Engine) (community : Bytes) : Engine × List Post :=
  let engine := engine.flushDirtyDeltas
  (engine, (engine.metaDB.posts.entries.filter fun entry => entry.2.community = community).map
    fun entry => postOfRow entry.1 entry.2)

def syncDir (env : SyncEnv) (opts : SyncDirOptions) (board : Bytes) (engine : Engine)
    (data : Bytes) : Engine × Option (SyncDirStats × Bytes) :=
  let (engine, posts) := engine.listPostMeta board
  (engine, PostSvc.syncDir env opts posts data)

end Engine

end Pttbbs.PostSvc
