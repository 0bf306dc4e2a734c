/-
Reading, rendering, commenting, voting and creating.

Every operation takes the state and, where the source reads the clock, the
reading.  I/O errors are not modelled; missing rows and records, constraint
violations and refused parameters are.  The steps that a lock does not cover
are separate definitions, and the operations are composed of them.
-/

import Pttbbs.PostSvc.Storage

namespace Pttbbs.PostSvc

open Pttbbs.Lib

def postOfRow (id : UInt64) (row : PostRow) : Post :=
  { id := id
    parentID := row.parentID
    community := row.community
    postFile := row.postFile
    title := row.title
    creatorName := row.creatorName
    creatorID := row.creatorID
    createdAt := row.createdAt
    modified := if row.modified = 0 then row.createdAt else row.modified
    filemode := row.filemode
    money := row.money
    upvotes := row.upvotes
    downvotes := row.downvotes
    numComments := row.numComments
    numCrossposts := row.numCrossposts
    encoding := row.encoding
    deletion := row.deletion }

namespace Engine

/-! ### Reading a post -/

def setPostRecord (engine : Engine) (post : Post) : Engine :=
  { engine with postsDB := engine.postsDB.set (encodePostKey post.id) (encodeRFC822Post post) }

/-- The row with the body and, unless the row says it was taken down, the
deletion state of the Pebble record. -/
def withRecord (post : Post) (value : Bytes) : Post :=
  let record := decodeRFC822Post value
  let post := { post with content := record.2 }
  if post.deletion.deletedOrRemoved then post
  else { post with deletion := deletionFromRFC822 record.1 }

/-- A row without a Pebble record is completed from its board file. -/
def getPost (cfg : Config) (engine : Engine) (postID : UInt64) : Outcome Post :=
  match engine.metaDB.posts.get? postID with
  | none => (engine, .error .noRows)
  | some row =>
      let post := postOfRow postID row
      match engine.postsDB.get? (encodePostKey postID) with
      | some value => (engine, .ok (withRecord post value))
      | none =>
          let raw := (engine.boardFile post).getD []
          if raw = [] then (engine, .error (.wrapped "get pebble post" .pebbleNotFound))
          else
            let post := { post with content := cfg.decodeText raw }
            (engine.setPostRecord post, .ok post)

def getPostByCommunityFile (cfg : Config) (engine : Engine) (community postFile : Bytes) :
    Outcome Post :=
  match engine.metaDB.findFile community postFile with
  | none => (engine, .error .noRows)
  | some id => engine.getPost cfg id

def setPostContent (cfg : Config) (engine : Engine) (postID : UInt64) (content : Bytes) :
    Outcome Unit :=
  match engine.getPost cfg postID with
  | (engine, .error failure) => (engine, .error failure)
  | (engine, .ok post) => (engine.setPostRecord { post with content := content }, .ok ())

/-! ### Reading comments -/

def lookupMaxSequence (engine : Engine) (postID : UInt64) : UInt32 :=
  match (scanPrefix engine.commentsDB (encodeCommentPrefix postID)).getLast? with
  | some entry => ((decodeCommentKey entry.1).map Prod.snd).getD 0
  | none => 0

def getComment (engine : Engine) (postID : UInt64) (sequence : UInt32) : Option Comment :=
  (engine.commentsDB.get? (encodeCommentKey postID sequence)).bind
    (decodeRFC822Comment postID sequence)

/-- The comments of a post from a floor on, those by one creator if a name or an
id is given, at most `limit` of them. -/
def getCommentsFiltered (cfg : Config) (engine : Engine) (postID : UInt64)
    (startFloor limit : UInt32) (creatorName : Bytes) (creatorID : PersonID) : List Comment :=
  let limit := if limit = 0 then 1000 else limit.toNat
  let entries := (seekPrefix engine.commentsDB (encodeCommentPrefix postID)).filter
    (fun entry => encodeCommentKey postID startFloor ≤ entry.1)
  let comments := entries.filterMap (fun entry =>
    (decodeCommentKey entry.1).bind (fun key => decodeRFC822Comment postID key.2 entry.2))
  (comments.filter (fun comment =>
    (creatorName = [] || cfg.equalFold comment.creatorName creatorName) &&
      (creatorID = 0 || comment.creatorID = 0 || comment.creatorID = creatorID))).take limit

def getComments (cfg : Config) (engine : Engine) (postID : UInt64) (startFloor limit : UInt32) :
    List Comment :=
  engine.getCommentsFiltered cfg postID startFloor limit [] 0

/-! ### Rendering -/

def maxArticleFileSize : Nat := 32 * 1024 * 1024

/-- `readArticleFileLimited`: cut at the size limit and at the first NUL. -/
def readArticle (bytes : Bytes) : Bytes :=
  (bytes.take maxArticleFileSize).takeWhile (fun byte => byte ≠ 0)

def globBoards (engine : Engine) (postFile : Bytes) : List Bytes :=
  let deep := engine.files.entries.filter (fun entry =>
    match splitOn 47 entry.1 with
    | [top, _, _, name] => top = utf8 "boards" && name = postFile
    | _ => false)
  let flat := engine.files.entries.filter (fun entry =>
    match splitOn 47 entry.1 with
    | [top, _, name] => top = utf8 "boards" && name = postFile
    | _ => false)
  (if deep = [] then flat else deep).map Prod.snd

/-- The file an empty post is filled from: its board file, or without a
community any board's file of that name. -/
def articleText (cfg : Config) (engine : Engine) (post : Post) : Option Bytes :=
  if post.postFile = [] || post.postFile = utf8 "-" then none
  else
    let candidates :=
      if post.community = [] then engine.globBoards post.postFile
      else (engine.boardFile post).toList
    ((candidates.map readArticle).find? (fun bytes => bytes ≠ [])).map cfg.decodeText

def fillContent (cfg : Config) (engine : Engine) (post : Post) : Engine × Post :=
  if post.content = [] then
    match engine.articleText cfg post with
    | some text =>
        ((engine.setPostContent cfg post.id text).1, { post with content := text })
    | none => (engine, post)
  else (engine, post)

def renderFullPostText (cfg : Config) (engine : Engine) (postID : UInt64) (asBig5 : Bool) :
    Outcome Bytes :=
  match engine.getPost cfg postID with
  | (engine, .error failure) => (engine, .error failure)
  | (engine, .ok post) =>
      if post.deletion.deletedOrRemoved then
        let notice := deletedNotice post.deletion
        (engine, .ok (if asBig5 then encodeBig5 cfg.u2bTable notice else notice))
      else
        let (engine, post) := engine.fillContent cfg post
        let comments := engine.getComments cfg postID 1 100000
        (engine, .ok (renderPostWithComments cfg post comments asBig5))

def renderAndSave (cfg : Config) (engine : Engine) (post : Post) : Engine :=
  match engine.renderFullPostText cfg post.id cfg.isBig5 with
  | (engine, .error _) => engine
  | (engine, .ok rendered) => engine.writeBoardFile post rendered

/-- With a cache directory of its own the board file is left alone. -/
def writePostCache (cfg : Config) (engine : Engine) (post : Post) : Engine :=
  if cfg.externalCache then engine
  else engine.writeBoardFile post (cfg.encodeText (endedContent post.content))

/-- Append to the board file, or render it whole if it does not exist. -/
def appendCache (cfg : Config) (engine : Engine) (post : Post) (text : Bytes) : Engine :=
  match boardFilePath post.community post.postFile with
  | none => engine
  | some path =>
      match engine.files.get? path with
      | none => engine.renderAndSave cfg post
      | some old => { engine with files := engine.files.set path (old ++ cfg.encodeText text) }

def appendCommentCache (cfg : Config) (engine : Engine) (comment : Comment) : Engine :=
  match engine.getPost cfg comment.postID with
  | (engine, .error _) => engine
  | (engine, .ok post) => engine.appendCache cfg post (formatCommentBlock cfg comment)

def appendMergedCommentCache (cfg : Config) (engine : Engine) (postID : UInt64)
    (content : Bytes) : Engine :=
  match engine.getPost cfg postID with
  | (engine, .error _) => engine
  | (engine, .ok post) => engine.appendCache cfg post (formatMergedCommentLines content)

/-! ### Comments -/

inductive CommentPlan where
  | merge (previous added : Comment)
  | append (added : Comment)
deriving DecidableEq

def canMerge (cfg : Config) (previous added : Comment) : Bool :=
  let lastTime := if previous.lastCommentAt = 0 then previous.createdAt
    else previous.lastCommentAt
  let diff := added.createdAt - lastTime
  !previous.deletion.deletedOrRemoved &&
    cfg.equalFold previous.creatorName added.creatorName &&
    (added.creatorID = 0 || previous.creatorID = 0 || added.creatorID = previous.creatorID) &&
    0 ≤ diff && diff ≤ 180 &&
    countCommentLines previous.content + countCommentLines added.content ≤ maxCommentLines

/-- The part under `seqMu`: read the last floor, decide, and count up. -/
def planComment (cfg : Config) (engine : Engine) (comment : Comment) : Engine × CommentPlan :=
  let cached := engine.postSeqs.get? comment.postID
  let lastSeq := cached.getD (engine.lookupMaxSequence comment.postID)
  let previous := if 0 < lastSeq then engine.getComment comment.postID lastSeq else none
  let comment :=
    { comment with content := truncateCommentLines comment.content maxCommentLines }
  match previous.filter (fun stored => canMerge cfg stored comment) with
  | some stored =>
      ({ engine with postSeqs := engine.postSeqs.set comment.postID lastSeq },
        .merge stored comment)
  | none =>
      let sequence := lastSeq + 1
      ({ engine with postSeqs := engine.postSeqs.set comment.postID sequence },
        .append { comment with sequence := sequence })

def setCommentRecord (engine : Engine) (comment : Comment) : Engine :=
  { engine with
    commentsDB := engine.commentsDB.set (encodeCommentKey comment.postID comment.sequence)
      (encodeRFC822Comment comment) }

def mergeComment (previous added : Comment) : Comment :=
  { previous with
    content := trimRight [carriageReturn, newline] previous.content ++ [newline] ++ added.content
    lastCommentAt := added.createdAt }

def CommentPlan.record : CommentPlan → Comment
  | .merge previous added => mergeComment previous added
  | .append added => added

def CommentPlan.added : CommentPlan → Comment
  | .merge _ added => added
  | .append added => added

def finishComment (cfg : Config) (engine : Engine) : CommentPlan → Engine × Comment
  | .merge previous added =>
      (engine.appendMergedCommentCache cfg added.postID added.content,
        { mergeComment previous added with isMerged := true })
  | .append added =>
      let engine := { engine with
        commentsDB := engine.commentsDB.set (encodeAuthorCommentKey added.creatorName
          added.createdAt added.postID added.sequence) [] }
      let engine := engine.addDelta added.postID { comments := 1 }
      (engine.appendCommentCache cfg added, added)

def addComment (cfg : Config) (engine : Engine) (now : Int64) (comment : Comment) :
    Engine × Comment :=
  let comment :=
    { comment with createdAt := if comment.createdAt = 0 then now else comment.createdAt }
  let (engine, plan) := engine.planComment cfg comment
  (engine.setCommentRecord plan.record).finishComment cfg plan

/-! ### Votes -/

def readVote (engine : Engine) (postID : UInt64) (personName : Bytes) : VoteType :=
  match engine.votesDB.get? (encodeVoteKey postID personName) with
  | some value => voteOfValue value
  | none => voteNeutral

/-- The change of the up and down totals when a vote replaces another. -/
def voteDeltas (previous newVote : VoteType) : Int × Int :=
  ((if newVote = voteUp then 1 else 0) - (if previous = voteUp then 1 else 0),
    (if newVote = voteDown then 1 else 0) - (if previous = voteDown then 1 else 0))

def writeVote (engine : Engine) (now : Int64) (postID : UInt64) (personName : Bytes)
    (personID : PersonID) (newVote : VoteType) (createdAt : Int64) (ip : Bytes) : Engine :=
  let key := encodeVoteKey postID personName
  if newVote = voteUp || newVote = voteDown then
    let createdAt := if createdAt = 0 then now else createdAt
    { engine with
      votesDB := engine.votesDB.set key (encodeVoteValue newVote personID createdAt ip) }
  else { engine with votesDB := engine.votesDB.delete key }

def votePost (engine : Engine) (now : Int64) (postID : UInt64) (personName : Bytes)
    (personID : PersonID) (newVote : VoteType) (createdAt : Int64) (ip : Bytes) :
    Engine × Int × Int :=
  let previous := engine.readVote postID personName
  if previous = newVote then (engine, 0, 0)
  else
    let deltas := voteDeltas previous newVote
    let engine := engine.writeVote now postID personName personID newVote createdAt ip
    (engine.addDelta postID { upvotes := deltas.1, downvotes := deltas.2 }, deltas)

def getVotes (engine : Engine) (postID : UInt64) : List VoteRecord :=
  (scanPrefix engine.votesDB (encodeVotePrefix postID)).filterMap (fun entry =>
    (decodeVoteKey entry.1).bind (fun key =>
      (decodeVoteValue entry.2).bind (fun value =>
        if key.1 = postID && (value.1 = voteUp || value.1 = voteDown) then
          some
            { postID := key.1
              personName := key.2
              personID := value.2.1
              vote := value.1
              createdAt := value.2.2.1
              ip := value.2.2.2 }
        else none)))

def resetVotes (engine : Engine) (postID : UInt64) : Engine :=
  let keys := (scanPrefix engine.votesDB (encodeVotePrefix postID)).map Prod.fst
  { engine with
    votesDB := engine.votesDB.deleteAll keys
    dirtyDeltas := engine.dirtyDeltas.modify postID (fun pending =>
      { pending with upvotes := 0, downvotes := 0 })
    metaDB := engine.metaDB.updatePost postID (fun row =>
      { row with upvotes := 0, downvotes := 0 }) }

/-! ### Flushing -/

def applyDelta (delta : PostDelta) (row : PostRow) : PostRow :=
  { row with
    upvotes := row.upvotes + delta.upvotes
    downvotes := row.downvotes + delta.downvotes
    numComments := row.numComments + delta.comments }

/-- Every pending change is added to its row; changes of missing rows are lost. -/
def flushDirtyDeltas (engine : Engine) : Engine :=
  { engine with
    dirtyDeltas := OrderedMap.empty
    metaDB := { engine.metaDB with
      posts := engine.metaDB.posts.mapValues (fun id row =>
        applyDelta ((engine.dirtyDeltas.get? id).getD {}) row) } }

/-! ### Creating -/

/-- The columns `CreatePost` inserts; the others take their defaults. -/
def createdRow (post : Post) : PostRow :=
  { parentID := post.parentID
    community := post.community
    postFile := post.postFile
    title := post.title
    creatorName := post.creatorName
    creatorID := post.creatorID
    createdAt := post.createdAt
    modified := post.modified
    filemode := post.filemode
    upvotes := post.upvotes
    downvotes := post.downvotes
    numComments := post.numComments
    numCrossposts := post.numCrossposts
    encoding := post.encoding
    deletion := {}
    money := post.money }

def nextShardID (cfg : Config) (engine : Engine) : Engine × UInt64 :=
  let sequence := engine.postSeqCounter + 1
  ({ engine with postSeqCounter := sequence }, sequence * cfg.numShards + cfg.shardID)

def preparePost (now : Int64) (post : Post) : Post :=
  let createdAt := if post.createdAt = 0 then now else post.createdAt
  { post with
    createdAt := createdAt
    modified := if post.modified = 0 then createdAt else post.modified
    encoding := utf8Name
    title := headerValue post.title }

def demotedComment (post : Post) (netText : Bytes) : Comment :=
  { postID := post.parentID
    creatorName := post.creatorName
    content := if netText = [] then utf8 "(回文無實質內容)" else netText
    createdAt := post.createdAt }

/-- The id an insertion asks for: the given one, the next of the shard, or the
one SQLite counts. -/
def candidateID (cfg : Config) (engine : Engine) (post : Post) : Engine × Option UInt64 :=
  if post.id ≠ 0 then (engine, some post.id)
  else if 1 < cfg.numShards then
    let (engine, id) := engine.nextShardID cfg
    (engine, some id)
  else (engine, none)

def insertNewPost (cfg : Config) (engine : Engine) (post : Post) : Outcome Post :=
  let (engine, given) := engine.candidateID cfg post
  match engine.metaDB.insertPost given (createdRow post) with
  | .error failure => (engine, .error (.wrapped "insert sqlite post" failure))
  | .ok (metaDB, id) =>
      let post := { post with id := id }
      let engine := { engine with metaDB := metaDB }.setPostRecord post
      ((engine.renderAndSave cfg post).writePostCache cfg post, .ok post)

def existingPost (engine : Engine) (post : Post) : Option UInt64 :=
  if post.id = 0 && post.community ≠ [] && post.postFile ≠ [] then
    engine.metaDB.findFile post.community post.postFile
  else none

def createPost (cfg : Config) (engine : Engine) (now : Int64) (post : Post) : Outcome Post :=
  let post := preparePost now post
  let netText := extractNetNewContent post.content
  if post.parentID ≠ 0 && runeCount netText < cfg.minReplyRunes then
    let (engine, added) := engine.addComment cfg now (demotedComment post netText)
    (engine, .ok { post with
      id := 0
      demotedToComment := true
      numComments := added.sequence.toNat })
  else
    match engine.existingPost post with
    | some id =>
        let post := { post with id := id }
        (engine.setPostRecord post, .ok post)
    | none => engine.insertNewPost cfg post

def setPostMeta (cfg : Config) (engine : Engine) (community postFile : Bytes)
    (filemode money : Int64) : Outcome Unit :=
  match engine.metaDB.findFile community postFile with
  | none => (engine, .error (.wrapped "post not found" .noRows))
  | some id =>
      let engine := { engine with
        metaDB := engine.metaDB.updatePost id (fun row =>
          { row with filemode := filemode, money := money }) }
      match engine.getPost cfg id with
      | (engine, .error failure) => (engine, .error failure)
      | (engine, .ok post) => (engine.setPostRecord post, .ok ())

/-! ### Crossposts -/

def crosspostRow (crosspost : CrosspostRecord) : CrosspostRow :=
  { sourcePostID := crosspost.sourcePostID
    targetCommunity := crosspost.targetCommunity
    targetPostFile := crosspost.targetPostFile
    creatorName := crosspost.creatorName
    creatorID := crosspost.creatorID
    createdAt := crosspost.createdAt }

def setCrosspostRecord (engine : Engine) (sequence : UInt32) (crosspost : CrosspostRecord) :
    Engine :=
  { engine with
    postsDB := engine.postsDB.set (encodeCrosspostKey crosspost.sourcePostID sequence)
      (encodeRFC822Crosspost crosspost) }

def addCrosspost (cfg : Config) (engine : Engine) (now : Int64)
    (srcCommunity srcPostFile targetCommunity targetPostFile creatorName : Bytes)
    (creatorID : PersonID) (createdAt : Int64) : Outcome (CrosspostRecord × Int) :=
  match engine.getPostByCommunityFile cfg srcCommunity srcPostFile with
  | (engine, .error failure) => (engine, .error (.wrapped "source post not found" failure))
  | (engine, .ok source) =>
      let crosspost : CrosspostRecord :=
        { sourcePostID := source.id
          targetCommunity := targetCommunity
          targetPostFile := targetPostFile
          creatorName := creatorName
          creatorID := creatorID
          createdAt := if createdAt = 0 then now else createdAt }
      match engine.metaDB.insertCrosspost (crosspostRow crosspost) with
      | .error failure => (engine, .error (.wrapped "insert crosspost failed" failure))
      | .ok (metaDB, id) =>
          let metaDB := metaDB.updatePost source.id (fun row =>
            { row with numCrossposts := row.numCrossposts + 1 })
          let newCount := ((metaDB.posts.get? source.id).map PostRow.numCrossposts).getD 0
          let crosspost := { crosspost with id := id }
          let engine := { engine with metaDB := metaDB }
          let engine := engine.setCrosspostRecord (UInt32.ofInt newCount) crosspost
          (engine.setPostRecord { source with numCrossposts := newCount },
            .ok (crosspost, newCount))

end Engine

/-! ### A first post -/

def firstPost : Post :=
  { community := utf8 "Test"
    postFile := utf8 "M.1.A"
    title := utf8 "hello"
    creatorName := utf8 "alice"
    content := utf8 "first\n" }

def firstEngine (now : Int64) : Engine := (Engine.createPost {} {} now firstPost).1

def firstRead : Post :=
  { firstPost with id := 1, createdAt := 100, modified := 100, encoding := utf8Name }

end Pttbbs.PostSvc
