/-
The request lines of post.svc.

A client sends a line of arguments, and for some commands a title or a content of the length
that the line gives.  The handler checks how many arguments there are, reads the numbers
without regard to errors, allocates what the lengths say, and turns the line into a call of
the storage.  An index or a length that is out of range stops the whole service.
-/

import Pttbbs.PostSvc.Run

namespace Pttbbs.PostSvc.Ipc

open Pttbbs.Lib

/-! ### What a handler can do -/

inductive Panic where
  | indexOutOfRange
  | makesliceLenOutOfRange
deriving DecidableEq, Repr

inductive Stop where
  | closed
  | reply (text : Bytes)
  | panic (why : Panic)
deriving DecidableEq

abbrev Handled := Except Stop

/-- What the handler does not compute itself: the case of letters, decoding, the clock, and
the longest slice that the runtime allocates. -/
structure Env where
  toUpper : Bytes → Bytes
  toLower : Bytes → Bytes
  big5Decode : Bytes → Bytes
  formatTime : Int64 → Bytes
  now : Int64
  maxAlloc : Nat
  importWorkers : Int64

def reply {α : Type} (text : Bytes) : Handled α := .error (.reply text)

def part (parts : List Bytes) (index : Nat) : Handled Bytes :=
  match parts[index]? with
  | none => .error (.panic .indexOutOfRange)
  | some text => .ok text

def joinFrom (parts : List Bytes) (index : Nat) : Handled Bytes :=
  if index ≤ parts.length then .ok (joinWith [blank] (parts.drop index))
  else .error (.panic .indexOutOfRange)

def atLeast (parts : List Bytes) (count : Nat) (name : String) : Handled Unit :=
  if parts.length < count then reply (utf8 ("ERR invalid arguments for " ++ name ++ "\n"))
  else .ok ()

/-- An argument that may be left out: `if len(parts) >= count` before `parts[index]`. -/
def optional {α : Type} (parts : List Bytes) (count index : Nat) (default : α)
    (read : Bytes → α) : Handled α :=
  if count ≤ parts.length then (part parts index).map read else .ok default

def reasonFrom (parts : List Bytes) (count index : Nat) : Handled Bytes :=
  if count ≤ parts.length then joinFrom parts index else .ok []

def readPayload (env : Env) (what : String) (reader : Bytes) (length : Int64) :
    Handled (Bytes × Bytes) :=
  if length.toInt < 0 ∨ (env.maxAlloc : Int) < length.toInt then
    .error (.panic .makesliceLenOutOfRange)
  else if length.toInt.toNat ≤ reader.length then
    .ok (reader.take length.toInt.toNat, reader.drop length.toInt.toNat)
  else
    let failure := if reader = [] then "EOF" else "unexpected EOF"
    reply (utf8 ("ERR read " ++ what ++ " failed: " ++ failure ++ "\n"))

/-! ### Numbers and names -/

def atoi (text : Bytes) : Int64 := parseInt64 text

def parseInt64? (text : Bytes) : Option Int64 :=
  match parseNat? (signOf text).2 with
  | none => none
  | some value =>
      if value < 2 ^ 63 ∨ (signOf text).1 = true ∧ value = 2 ^ 63 then some (parseInt64 text)
      else none

def parseUint? (bits : Nat) (text : Bytes) : Option Nat :=
  match parseNat? text with
  | none => none
  | some value => if value < 2 ^ bits then some value else none

def parsePersonID (text : Bytes) : PersonID := UInt64.ofNat (parseUint 64 text)

def postIDAt (parts : List Bytes) (index : Nat) : Handled UInt64 := do
  let text ← part parts index
  match parseUint? 64 text with
  | none => reply (utf8 "ERR invalid post_id: " ++ text ++ utf8 "\n")
  | some postID => .ok (UInt64.ofNat postID)

def seqAt (parts : List Bytes) (index : Nat) : Handled UInt32 := do
  let text ← part parts index
  match parseUint? 32 text with
  | none => reply (utf8 "ERR invalid seq: " ++ text ++ utf8 "\n")
  | some seq => .ok (UInt32.ofNat seq)

def positiveOr (default : UInt32) (text : Bytes) : UInt32 :=
  match parseUint? 32 text with
  | none => default
  | some value => if 0 < value then UInt32.ofNat value else default

def uint32Of (text : Bytes) : UInt32 := UInt32.ofNat (parseUint 32 text)

/-- `-` stands for no value. -/
def dashed (text : Bytes) : Bytes := if text = utf8 "-" then [] else text

def isFlag (env : Env) (words : List String) (text : Bytes) : Bool :=
  text = utf8 "1" || words.any fun word => env.toLower text = utf8 word

def timeOr (env : Env) (ctime : Int64) : Int64 := if ctime = 0 then env.now else ctime

def unixLines (text : Bytes) : Bytes :=
  replaceAll [carriageReturn] [newline] (replaceAll [carriageReturn, newline] [newline] text)

/-- `^[A-Za-z0-9_][A-Za-z0-9._-]*$` -/
def isValidBackupName (name : Bytes) : Bool :=
  let word := fun byte : UInt8 =>
    65 ≤ byte ∧ byte ≤ 90 ∨ 97 ≤ byte ∧ byte ≤ 122 ∨ 48 ≤ byte ∧ byte ≤ 57 ∨ byte = 95
  match name with
  | [] => false
  | first :: rest =>
      decide (word first) && rest.all fun byte => decide (word byte ∨ byte = 46 ∨ byte = 45)

/-! ### What a request asks for -/

inductive Target where
  | post (postID : UInt64)
  | file (community postFile : Bytes)
deriving DecidableEq

structure ImportBoardOptions where
  board : Bytes
  renderTarget : Bytes
  overwrite : Bool
  limit : Int64
  offset : Int64
  noMerge : Bool
  commentdDB : Bytes
  legacyFormat : Bool
  dryRun : Bool
  workers : Int64
deriving DecidableEq

structure SyncDirOptions where
  board : Bytes
  dryRun : Bool := false
  full : Bool := false
  prune : Bool := false
  addMissing : Bool := false
deriving DecidableEq

structure Editor where
  name : Bytes
  id : PersonID
deriving DecidableEq

/-- The calls of the storage that the commands lead to. -/
inductive Request where
  | ping
  | backup (dest : Bytes)
  | postFile (post : Post)
  | createPost (post : Post)
  | comment (community postFile : Bytes) (comment : Comment)
  | vote (target : Target) (person : Editor) (value : VoteType) (ctime : Int64) (ip : Bytes)
  | votes (target : Target)
  | resetVotes (community postFile : Bytes)
  | getPost (target : Target)
  | purgeComments (author : Bytes) (days : Int64)
  | purgePosts (author : Bytes) (days : Int64)
  | list (community : Bytes) (count start : Int64) (deleted : Bool)
  | render (target : Target) (outputPath : Bytes) (legacy : Bool)
  | importBoard (options : ImportBoardOptions)
  | setMeta (community postFile : Bytes) (filemode money : Int64)
  | syncDir (options : SyncDirOptions)
  | renderCommunity (community targetDir : Bytes) (legacy : Bool)
  | fetchPostFile (community postFile targetPath sourcePath : Bytes)
  | updatePost (target : Target) (title content : Bytes) (editor : Editor)
      (expectedModified : Int64)
  | updatePostTitle (target : Target) (title : Bytes) (editor : Editor)
  | updateComment (target : Target) (seq : UInt32) (content : Bytes) (editor : Editor)
  | deleteCommunity (community : Bytes)
  | purgePost (target : Target)
  | deletePost (target : Target) (deleter : Editor) (reason : Bytes)
  | undeletePost (target : Target)
  | deleteComment (target : Target) (seq : UInt32) (deleter : Editor) (reason : Bytes)
  | undeleteComment (target : Target) (seq : UInt32)
  | comments (target : Target) (start limit : UInt32) (creator : Editor)
  | commentCount (target : Target)
  | postHistory (target : Target) (rev : UInt32) (outFile : Bytes)
  | commentHistory (target : Target) (seq rev : UInt32)
  | crosspost (call : CrosspostCall)
  | crossposts (community postFile : Bytes)
  | origin (community postFile : Bytes)
deriving DecidableEq

/-! ### The commands -/

section Commands

variable (env : Env) (parts : List Bytes) (reader : Bytes)

def fileAt (index : Nat) : Handled Target := do
  return .file (← part parts index) (← part parts (index + 1))

def editorAt (index : Nat) : Handled Editor := do
  return ⟨← part parts index, parsePersonID (← part parts (index + 1))⟩

/-- BACKUP [name or absolute path] -/
def backup : Handled Request := do
  let given ← joinFrom parts 1
  let dest := if given = [] then env.formatTime env.now else given
  if dest.head? ≠ some 47 ∧ isValidBackupName dest = false then
    reply (utf8 ("ERR BACKUP destination must be a name ([A-Za-z0-9._-]) " ++
      "or an absolute path\n"))
  else return .backup dest

/-- POST_FILE community post_file creator_name creator_id filemode money ctime title_bytes -/
def postFile : Handled Request := do
  atLeast parts 9 "POST_FILE"
  let community ← part parts 1
  let file ← part parts 2
  let creator ← editorAt parts 3
  let filemode ← part parts 5
  let money ← part parts 6
  let ctime ← part parts 7
  let titleLen ← part parts 8
  let title ← readPayload env "title" reader (atoi titleLen)
  return .postFile
    { community := community, postFile := file, title := title.1
      creatorName := creator.name, creatorID := creator.id, filemode := atoi filemode
      money := atoi money, createdAt := timeOr env (parseInt64 ctime) }

/-- POST community post_file creator_name creator_id filemode money ctime parent_id
title_bytes content_bytes -/
def post : Handled Request := do
  atLeast parts 11 "POST"
  let community ← part parts 1
  let file ← part parts 2
  let creator ← editorAt parts 3
  let filemode ← part parts 5
  let money ← part parts 6
  let ctime ← part parts 7
  let parentID ← part parts 8
  let titleLen ← part parts 9
  let contentLen ← part parts 10
  let title ← readPayload env "title" reader (atoi titleLen)
  let content ← readPayload env "content" title.2 (atoi contentLen)
  return .createPost
    { parentID := UInt64.ofNat (parseUint 64 parentID), community := community
      postFile := file, title := title.1, creatorName := creator.name, creatorID := creator.id
      filemode := atoi filemode, money := atoi money
      createdAt := timeOr env (parseInt64 ctime), content := content.1 }

/-- COMMENT community post_file creator_name creator_id ip ctime content_bytes [type] -/
def comment : Handled Request := do
  atLeast parts 8 "COMMENT"
  let community ← part parts 1
  let file ← part parts 2
  let creator ← editorAt parts 3
  let ip ← part parts 5
  let ctime ← part parts 6
  let contentLen ← part parts 7
  let content ← readPayload env "comment content" reader (atoi contentLen)
  let legacyType ← optional parts 9 8 3 fun text =>
    match parseInt64? text with
    | none => 3
    | some value => UInt8.ofNat (value.toInt % 256).toNat
  return .comment community file
    { creatorName := creator.name, creatorID := creator.id, ip := dashed ip
      content := unixLines content.1, createdAt := timeOr env (parseInt64 ctime)
      legacyType := legacyType }

def voteOf (text : Bytes) : VoteType := Int8.ofInt (atoi text).toInt

/-- VOTE_FILE community post_file person_name person_id vote [ip] [ctime] -/
def voteFile : Handled Request := do
  atLeast parts 6 "VOTE_FILE"
  let file ← fileAt parts 1
  let person ← editorAt parts 3
  let value ← part parts 5
  let ip ← optional parts 7 6 [] dashed
  let ctime ← optional parts 8 7 0 parseInt64
  return .vote file person (voteOf value) (timeOr env ctime) ip

/-- VOTE community post_id person_name person_id vote [ip] [ctime], the same with a file
instead of an id, or VOTE post_id person_name person_id vote -/
def vote : Handled Request := do
  atLeast parts 5 "VOTE"
  if 6 ≤ parts.length then
    let community ← part parts 1
    let named ← part parts 2
    let target :=
      match parseUint? 64 named with
      | some postID => Target.post (UInt64.ofNat postID)
      | none => .file community named
    let person ← editorAt parts 3
    let value ← part parts 5
    let ip ← optional parts 7 6 [] dashed
    let ctime ← optional parts 8 7 0 parseInt64
    return .vote target person (voteOf value) (timeOr env ctime) ip
  else
    let postID ← postIDAt parts 1
    let person ← editorAt parts 2
    let value ← part parts 4
    return .vote (.post postID) person (voteOf value) env.now []

/-- VOTES post_id -/
def votes : Handled Request := do
  atLeast parts 2 "VOTES"
  let text ← part parts 1
  match parseUint? 64 text with
  | none => reply (utf8 "ERR invalid post_id for VOTES\n")
  | some postID => return .votes (.post (UInt64.ofNat postID))

/-- VOTES_FILE community post_file -/
def votesFile : Handled Request := do
  atLeast parts 3 "VOTES_FILE"
  return .votes (← fileAt parts 1)

/-- RESET_VOTES_FILE community post_file -/
def resetVotesFile : Handled Request := do
  atLeast parts 3 "RESET_VOTES_FILE"
  return .resetVotes (← part parts 1) (← part parts 2)

/-- GET_POST community post_file -/
def getPost : Handled Request := do
  atLeast parts 3 "GET_POST"
  return .getPost (← fileAt parts 1)

/-- GET_POST_ID id -/
def getPostID : Handled Request := do
  atLeast parts 2 "GET_POST_ID"
  let id ← part parts 1
  return .getPost (.post (UInt64.ofNat (parseUint 64 id)))

def daysOf (text : Bytes) : Int64 := if 0 < (atoi text).toInt then atoi text else 7

/-- PURGE_COMMENTS author days -/
def purgeComments : Handled Request := do
  atLeast parts 3 "PURGE_COMMENTS"
  return .purgeComments (← part parts 1) (daysOf (← part parts 2))

/-- PURGE_POSTS author days -/
def purgePosts : Handled Request := do
  atLeast parts 3 "PURGE_POSTS"
  return .purgePosts (← part parts 1) (daysOf (← part parts 2))

def numberOr (default bound : Int64) (text : Bytes) : Int64 :=
  match parseInt64? text with
  | none => default
  | some value => if bound.toInt ≤ value.toInt then value else default

/-- LIST community [count [start [filter]]] -/
def list : Handled Request := do
  if parts.length < 2 then reply (utf8 "ERR invalid arguments for LIST\n")
  else
    let community ← part parts 1
    if community = [] then reply (utf8 "ERR invalid arguments for LIST\n")
    else
      let count ← optional parts 3 2 20 (numberOr 20 1)
      let start ← optional parts 4 3 0 (numberOr 0 0)
      let filterMode ← optional parts 5 4 [] env.toLower
      return .list community count start (filterMode = utf8 "deleted")

/-- RENDER post_id output_path [format] -/
def render : Handled Request := do
  atLeast parts 3 "RENDER"
  let postID ← postIDAt parts 1
  let outputPath ← part parts 2
  let legacy ← optional parts 4 3 false (isFlag env ["legacy"])
  return .render (.post postID) outputPath legacy

/-- IMPORT_BOARD community [target_dir] [overwrite] [limit] [offset] [nomerge] [commentd_db]
[legacy] [dryrun] [workers] -/
def importBoard : Handled Request := do
  atLeast parts 2 "IMPORT_BOARD"
  let community ← part parts 1
  let targetDir ← optional parts 3 2 [] dashed
  let overwrite ← optional parts 4 3 false (isFlag env ["true", "overwrite"])
  let limit ← optional parts 5 4 0 atoi
  let offset ← optional parts 6 5 0 atoi
  let noMerge ← optional parts 7 6 false (isFlag env ["true", "nomerge"])
  let commentdDB ← optional parts 8 7 [] dashed
  let legacyFormat ← optional parts 9 8 false (isFlag env ["true", "legacy"])
  let dryRun ← optional parts 10 9 false (isFlag env ["true", "dryrun", "dry-run"])
  let workers ← optional parts 11 10 env.importWorkers (numberOr env.importWorkers 1)
  return .importBoard
    { board := community, renderTarget := targetDir, overwrite := overwrite, limit := limit
      offset := offset, noMerge := noMerge, commentdDB := commentdDB
      legacyFormat := legacyFormat, dryRun := dryRun, workers := workers }

/-- SET_META_FILE community post_file filemode money -/
def setMetaFile : Handled Request := do
  atLeast parts 5 "SET_META_FILE"
  let community ← part parts 1
  let file ← part parts 2
  let filemode ← part parts 3
  let money ← part parts 4
  return .setMeta community file (atoi filemode) (atoi money)

def syncMode (options : SyncDirOptions) (mode : Bytes) : Handled SyncDirOptions :=
  if mode = utf8 "full" then .ok { options with full := true }
  else if mode = utf8 "prune" then .ok { options with prune := true }
  else if mode = utf8 "add-missing" then .ok { options with addMissing := true }
  else if mode = utf8 "only-scores" ∨ mode = [] then .ok options
  else reply (utf8 "ERR unknown SYNC_DIR mode: " ++ mode ++ utf8 "\n")

def syncModes : List Bytes → SyncDirOptions → Handled SyncDirOptions
  | [], options => .ok options
  | mode :: modes, options => do
      let options ← syncMode options mode
      syncModes modes options

/-- SYNC_DIR community [dryrun] [modes] -/
def syncDir : Handled Request := do
  atLeast parts 2 "SYNC_DIR"
  let board ← part parts 1
  let dryRun ← optional parts 3 2 false (isFlag env ["true", "dryrun"])
  let modes ← optional parts 4 3 [] fun text =>
    if text = utf8 "-" then [] else splitOn 44 text
  let options ← syncModes modes { board := board, dryRun := dryRun }
  return .syncDir options

/-- RENDER_FILE community post_file output_path [format] -/
def renderFile : Handled Request := do
  atLeast parts 4 "RENDER_FILE"
  let file ← fileAt parts 1
  let outputPath ← part parts 3
  let legacy ← optional parts 5 4 false (isFlag env ["legacy"])
  return .render file outputPath legacy

/-- RENDER_COMMUNITY community target_dir [format] -/
def renderCommunity : Handled Request := do
  atLeast parts 3 "RENDER_COMMUNITY"
  let community ← part parts 1
  let targetDir ← part parts 2
  let legacy ← optional parts 4 3 false (isFlag env ["legacy"])
  return .renderCommunity community targetDir legacy

/-- FETCH_POST_FILE community post_file target_path [source_path] -/
def fetchPostFile : Handled Request := do
  atLeast parts 4 "FETCH_POST_FILE"
  let community ← part parts 1
  let file ← part parts 2
  let targetPath ← part parts 3
  let sourcePath ← optional parts 5 4 [] dashed
  return .fetchPostFile community file targetPath sourcePath

/-- The title and the content of an edit, whose lengths stand behind the time that is
expected, or in its place. -/
def editedPost (target : Target) (editor : Editor) (index : Nat) (lines : Bytes → Bytes) :
    Handled Request := do
  if index + 3 ≤ parts.length then
    let expectedModified ← part parts index
    let titleLen ← part parts (index + 1)
    let contentLen ← part parts (index + 2)
    let title ← readPayload env "title" reader (atoi titleLen)
    let content ← readPayload env "content" title.2 (atoi contentLen)
    return .updatePost target title.1 (lines content.1) editor (parseInt64 expectedModified)
  else
    let titleLen ← part parts index
    let contentLen ← part parts (index + 1)
    let title ← readPayload env "title" reader (atoi titleLen)
    let content ← readPayload env "content" title.2 (atoi contentLen)
    return .updatePost target title.1 (lines content.1) editor 0

/-- UPDATE_POST post_id editor_name editor_id [expected_modified] title_bytes
content_bytes -/
def updatePost : Handled Request := do
  atLeast parts 6 "UPDATE_POST"
  let postID ← postIDAt parts 1
  let editor ← editorAt parts 2
  editedPost env parts reader (.post postID) editor 4 unixLines

/-- UPDATE_POST_FILE community post_file editor_name editor_id [expected_modified]
title_bytes content_bytes, whose content is taken as it is. -/
def updatePostFile : Handled Request := do
  atLeast parts 7 "UPDATE_POST_FILE"
  let file ← fileAt parts 1
  let editor ← editorAt parts 3
  editedPost env parts reader file editor 5 id

/-- UPDATE_POST_TITLE post_id editor_name editor_id title_bytes -/
def updatePostTitle : Handled Request := do
  atLeast parts 5 "UPDATE_POST_TITLE"
  let postID ← postIDAt parts 1
  let editor ← editorAt parts 2
  let titleLen ← part parts 4
  let title ← readPayload env "title" reader (atoi titleLen)
  return .updatePostTitle (.post postID) title.1 editor

/-- UPDATE_POST_TITLE_FILE community post_file editor_name editor_id title_bytes -/
def updatePostTitleFile : Handled Request := do
  atLeast parts 6 "UPDATE_POST_TITLE_FILE"
  let file ← fileAt parts 1
  let editor ← editorAt parts 3
  let titleLen ← part parts 5
  let title ← readPayload env "title" reader (atoi titleLen)
  return .updatePostTitle file title.1 editor

/-- UPDATE_COMMENT post_id seq editor_name editor_id content_bytes -/
def updateComment : Handled Request := do
  atLeast parts 6 "UPDATE_COMMENT"
  let postID ← postIDAt parts 1
  let seq ← part parts 2
  let editor ← editorAt parts 3
  let contentLen ← part parts 5
  let content ← readPayload env "content" reader (atoi contentLen)
  return .updateComment (.post postID) (uint32Of seq) content.1 editor

/-- UPDATE_COMMENT_FILE community post_file seq editor_name editor_id content_bytes -/
def updateCommentFile : Handled Request := do
  atLeast parts 7 "UPDATE_COMMENT_FILE"
  let file ← fileAt parts 1
  let seq ← part parts 3
  let editor ← editorAt parts 4
  let contentLen ← part parts 6
  let content ← readPayload env "content" reader (atoi contentLen)
  return .updateComment file (uint32Of seq) content.1 editor

/-- DELETE_COMMUNITY community -/
def deleteCommunity : Handled Request := do
  atLeast parts 2 "DELETE_COMMUNITY"
  return .deleteCommunity (← part parts 1)

/-- PURGE_POST post_id -/
def purgePost : Handled Request := do
  atLeast parts 2 "PURGE_POST"
  return .purgePost (.post (← postIDAt parts 1))

/-- PURGE_POST_FILE community post_file -/
def purgePostFile : Handled Request := do
  atLeast parts 3 "PURGE_POST_FILE"
  return .purgePost (← fileAt parts 1)

def decodeReason (reason : Bytes) : Bytes :=
  if validUtf8 reason then reason else env.big5Decode reason

/-- DELETE_POST post_id deleter_name deleter_id [reason...], whose reason is not decoded. -/
def deletePost : Handled Request := do
  atLeast parts 4 "DELETE_POST"
  let postID ← postIDAt parts 1
  let deleter ← editorAt parts 2
  let reason ← reasonFrom parts 5 4
  return .deletePost (.post postID) deleter reason

/-- DELETE_POST_FILE community post_file deleter_name deleter_id [reason...] -/
def deletePostFile : Handled Request := do
  atLeast parts 5 "DELETE_POST_FILE"
  let file ← fileAt parts 1
  let deleter ← editorAt parts 3
  let reason ← reasonFrom parts 6 5
  return .deletePost file deleter (decodeReason env reason)

/-- UNDELETE_POST post_id -/
def undeletePost : Handled Request := do
  atLeast parts 2 "UNDELETE_POST"
  return .undeletePost (.post (← postIDAt parts 1))

/-- UNDELETE_POST_FILE community post_file -/
def undeletePostFile : Handled Request := do
  atLeast parts 3 "UNDELETE_POST_FILE"
  return .undeletePost (← fileAt parts 1)

/-- DELETE_COMMENT post_id seq deleter_name deleter_id [reason...] -/
def deleteComment : Handled Request := do
  atLeast parts 5 "DELETE_COMMENT"
  let postID ← postIDAt parts 1
  let seq ← seqAt parts 2
  let deleter ← editorAt parts 3
  let reason ← reasonFrom parts 6 5
  return .deleteComment (.post postID) seq deleter (decodeReason env reason)

/-- DELETE_COMMENT_FILE community post_file seq deleter_name deleter_id [reason...] -/
def deleteCommentFile : Handled Request := do
  atLeast parts 6 "DELETE_COMMENT_FILE"
  let file ← fileAt parts 1
  let seq ← seqAt parts 3
  let deleter ← editorAt parts 4
  let reason ← reasonFrom parts 7 6
  return .deleteComment file seq deleter (decodeReason env reason)

/-- UNDELETE_COMMENT post_id seq -/
def undeleteComment : Handled Request := do
  atLeast parts 3 "UNDELETE_COMMENT"
  let postID ← postIDAt parts 1
  return .undeleteComment (.post postID) (← seqAt parts 2)

/-- UNDELETE_COMMENT_FILE community post_file seq -/
def undeleteCommentFile : Handled Request := do
  atLeast parts 4 "UNDELETE_COMMENT_FILE"
  let file ← fileAt parts 1
  return .undeleteComment file (← seqAt parts 3)

/-- COMMENTS post_id [start [limit]] -/
def comments : Handled Request := do
  atLeast parts 2 "COMMENTS"
  let postID ← postIDAt parts 1
  let start ← optional parts 3 2 1 (positiveOr 1)
  let limit ← optional parts 4 3 1000 (positiveOr 1000)
  return .comments (.post postID) start limit ⟨[], 0⟩

/-- COMMENTS_FILE community post_file [start [limit [creator_name [creator_id]]]] -/
def commentsFile : Handled Request := do
  atLeast parts 3 "COMMENTS_FILE"
  let file ← fileAt parts 1
  let start ← optional parts 4 3 1 (positiveOr 1)
  let limit ← optional parts 5 4 1000 (positiveOr 1000)
  let author ← optional parts 6 5 [] dashed
  let creatorID ← optional parts 7 6 0 fun text =>
    if text = utf8 "-" then 0 else parsePersonID text
  return .comments file start limit ⟨author, creatorID⟩

/-- COMMENT_COUNT post_id -/
def commentCount : Handled Request := do
  atLeast parts 2 "COMMENT_COUNT"
  return .commentCount (.post (← postIDAt parts 1))

/-- COMMENT_COUNT_FILE community post_file -/
def commentCountFile : Handled Request := do
  atLeast parts 3 "COMMENT_COUNT_FILE"
  return .commentCount (← fileAt parts 1)

/-- POST_HISTORY post_id [rev] -/
def postHistory : Handled Request := do
  atLeast parts 2 "POST_HISTORY"
  let postID ← postIDAt parts 1
  let rev ← optional parts 3 2 0 uint32Of
  return .postHistory (.post postID) rev []

/-- POST_HISTORY_FILE community post_file [rev] [out_file] -/
def postHistoryFile : Handled Request := do
  atLeast parts 3 "POST_HISTORY_FILE"
  let file ← fileAt parts 1
  let rev ← optional parts 4 3 0 uint32Of
  let outFile ← optional parts 5 4 [] dashed
  return .postHistory file rev outFile

/-- COMMENT_HISTORY post_id seq [rev] -/
def commentHistory : Handled Request := do
  atLeast parts 3 "COMMENT_HISTORY"
  let postID ← postIDAt parts 1
  let seq ← part parts 2
  let rev ← optional parts 4 3 0 uint32Of
  return .commentHistory (.post postID) (uint32Of seq) rev

/-- COMMENT_HISTORY_FILE community post_file seq [rev] -/
def commentHistoryFile : Handled Request := do
  atLeast parts 4 "COMMENT_HISTORY_FILE"
  let file ← fileAt parts 1
  let seq ← part parts 3
  let rev ← optional parts 5 4 0 uint32Of
  return .commentHistory file (uint32Of seq) rev

/-- CROSSPOST src_community src_file target_community target_file creator_name creator_id
[ctime] -/
def crosspost : Handled Request := do
  atLeast parts 7 "CROSSPOST"
  let srcCommunity ← part parts 1
  let srcFile ← part parts 2
  let targetCommunity ← part parts 3
  let targetFile ← part parts 4
  let creator ← editorAt parts 5
  let ctime ← optional parts 8 7 0 parseInt64
  return .crosspost
    { srcCommunity := srcCommunity, srcPostFile := srcFile, targetCommunity := targetCommunity
      targetPostFile := targetFile, creatorName := creator.name, creatorID := creator.id
      createdAt := ctime }

/-- CROSSPOSTS community post_file -/
def crossposts : Handled Request := do
  atLeast parts 3 "CROSSPOSTS"
  return .crossposts (← part parts 1) (← part parts 2)

/-- ORIGIN target_community target_post_file -/
def origin : Handled Request := do
  atLeast parts 3 "ORIGIN"
  return .origin (← part parts 1) (← part parts 2)

end Commands

/-! ### Lines -/

inductive Command where
  | ping
  | backup
  | postFile
  | post
  | comment
  | voteFile
  | vote
  | votes
  | votesFile
  | resetVotesFile
  | getPost
  | getPostID
  | purgeComments
  | purgePosts
  | list
  | render
  | importBoard
  | setMetaFile
  | syncDir
  | renderFile
  | renderCommunity
  | fetchPostFile
  | updatePost
  | updatePostFile
  | updatePostTitle
  | updatePostTitleFile
  | updateComment
  | updateCommentFile
  | deleteCommunity
  | purgePost
  | purgePostFile
  | deletePost
  | deletePostFile
  | undeletePost
  | undeletePostFile
  | deleteComment
  | deleteCommentFile
  | undeleteComment
  | undeleteCommentFile
  | comments
  | commentsFile
  | commentCount
  | commentCountFile
  | postHistory
  | postHistoryFile
  | commentHistory
  | commentHistoryFile
  | crosspost
  | crossposts
  | origin
deriving DecidableEq, Repr

/-- The cases of the switch, with the names that lead to the same one. -/
def commandNames : List (String × Command) :=
  [("PING", .ping), ("BACKUP", .backup), ("POST_FILE", .postFile), ("POST", .post),
   ("COMMENT", .comment), ("VOTE_FILE", .voteFile), ("VOTE", .vote), ("VOTES", .votes),
   ("VOTES_FILE", .votesFile), ("RESET_VOTES_FILE", .resetVotesFile), ("GET_POST", .getPost),
   ("GET_POST_ID", .getPostID), ("PURGE_COMMENTS", .purgeComments),
   ("PURGE_POSTS", .purgePosts), ("LIST", .list), ("RENDER", .render),
   ("IMPORT_BOARD", .importBoard), ("MIGRATE_BOARD", .importBoard),
   ("SET_META_FILE", .setMetaFile), ("SYNC_DIR", .syncDir), ("RENDER_FILE", .renderFile),
   ("RENDER_COMMUNITY", .renderCommunity), ("FETCH_POST_FILE", .fetchPostFile),
   ("PULL_POST_FILE", .fetchPostFile), ("UPDATE_POST", .updatePost), ("EDIT_POST", .updatePost),
   ("UPDATE_POST_FILE", .updatePostFile), ("EDIT_POST_FILE", .updatePostFile),
   ("UPDATE_POST_TITLE", .updatePostTitle), ("UPDATE_POST_TITLE_FILE", .updatePostTitleFile),
   ("UPDATE_COMMENT", .updateComment), ("EDIT_COMMENT", .updateComment),
   ("UPDATE_COMMENT_FILE", .updateCommentFile), ("EDIT_COMMENT_FILE", .updateCommentFile),
   ("DELETE_COMMUNITY", .deleteCommunity), ("PURGE_COMMUNITY", .deleteCommunity),
   ("PURGE_POST", .purgePost), ("PURGE_POST_FILE", .purgePostFile),
   ("DELETE_POST", .deletePost), ("DELETE_POST_FILE", .deletePostFile),
   ("UNDELETE_POST", .undeletePost), ("UNDELETE_POST_FILE", .undeletePostFile),
   ("DELETE_COMMENT", .deleteComment), ("DELETE_COMMENT_FILE", .deleteCommentFile),
   ("UNDELETE_COMMENT", .undeleteComment), ("UNDELETE_COMMENT_FILE", .undeleteCommentFile),
   ("COMMENTS", .comments), ("COMMENTS_FILE", .commentsFile), ("COMMENT_COUNT", .commentCount),
   ("COMMENT_COUNT_FILE", .commentCountFile), ("POST_HISTORY", .postHistory),
   ("POST_HISTORY_FILE", .postHistoryFile), ("COMMENT_HISTORY", .commentHistory),
   ("COMMENT_HISTORY_FILE", .commentHistoryFile), ("CROSSPOST", .crosspost),
   ("CROSSPOSTS", .crossposts), ("GET_CROSSPOSTS", .crossposts), ("ORIGIN", .origin),
   ("GET_ORIGIN", .origin)]

def commandOf (cmd : Bytes) : Option Command :=
  (commandNames.find? fun entry => utf8 entry.1 = cmd).map Prod.snd

def handle (env : Env) (parts : List Bytes) (reader : Bytes) : Command → Handled Request
  | .ping => .ok .ping
  | .backup => Ipc.backup env parts
  | .postFile => Ipc.postFile env parts reader
  | .post => Ipc.post env parts reader
  | .comment => Ipc.comment env parts reader
  | .voteFile => Ipc.voteFile env parts
  | .vote => Ipc.vote env parts
  | .votes => Ipc.votes parts
  | .votesFile => Ipc.votesFile parts
  | .resetVotesFile => Ipc.resetVotesFile parts
  | .getPost => Ipc.getPost parts
  | .getPostID => Ipc.getPostID parts
  | .purgeComments => Ipc.purgeComments parts
  | .purgePosts => Ipc.purgePosts parts
  | .list => Ipc.list env parts
  | .render => Ipc.render env parts
  | .importBoard => Ipc.importBoard env parts
  | .setMetaFile => Ipc.setMetaFile parts
  | .syncDir => Ipc.syncDir env parts
  | .renderFile => Ipc.renderFile env parts
  | .renderCommunity => Ipc.renderCommunity env parts
  | .fetchPostFile => Ipc.fetchPostFile parts
  | .updatePost => Ipc.updatePost env parts reader
  | .updatePostFile => Ipc.updatePostFile env parts reader
  | .updatePostTitle => Ipc.updatePostTitle env parts reader
  | .updatePostTitleFile => Ipc.updatePostTitleFile env parts reader
  | .updateComment => Ipc.updateComment env parts reader
  | .updateCommentFile => Ipc.updateCommentFile env parts reader
  | .deleteCommunity => Ipc.deleteCommunity parts
  | .purgePost => Ipc.purgePost parts
  | .purgePostFile => Ipc.purgePostFile parts
  | .deletePost => Ipc.deletePost parts
  | .deletePostFile => Ipc.deletePostFile env parts
  | .undeletePost => Ipc.undeletePost parts
  | .undeletePostFile => Ipc.undeletePostFile parts
  | .deleteComment => Ipc.deleteComment env parts
  | .deleteCommentFile => Ipc.deleteCommentFile env parts
  | .undeleteComment => Ipc.undeleteComment parts
  | .undeleteCommentFile => Ipc.undeleteCommentFile parts
  | .comments => Ipc.comments parts
  | .commentsFile => Ipc.commentsFile parts
  | .commentCount => Ipc.commentCount parts
  | .commentCountFile => Ipc.commentCountFile parts
  | .postHistory => Ipc.postHistory parts
  | .postHistoryFile => Ipc.postHistoryFile parts
  | .commentHistory => Ipc.commentHistory parts
  | .commentHistoryFile => Ipc.commentHistoryFile parts
  | .crosspost => Ipc.crosspost parts
  | .crossposts => Ipc.crossposts parts
  | .origin => Ipc.origin parts

/-- The first line of a stream and what follows it, if the line is complete. -/
def readString (stream : Bytes) : Option (Bytes × Bytes) :=
  match stream.dropWhile (· ≠ newline) with
  | [] => none
  | _ :: rest => some (stream.takeWhile (· ≠ newline), rest)

/-- `handleIPC` up to the call of the storage, on all that a client sends. -/
def handleIPC (env : Env) (stream : Bytes) : Handled Request :=
  match readString stream with
  | none => .error .closed
  | some (line, reader) =>
      let parts := splitOn blank (trimRight [carriageReturn, newline] line)
      if parts.length = 0 then .error .closed
      else do
        let first ← part parts 0
        if first = [] then .error .closed
        else
          let cmd := env.toUpper first
          match commandOf cmd with
          | none => reply (utf8 "ERR unknown command: " ++ cmd ++ utf8 "\n")
          | some command => handle env parts reader command

end Pttbbs.PostSvc.Ipc
