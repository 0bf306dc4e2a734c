/-
Taking an article apart.

The text of a legacy article is cut at its last end mark.  What follows is the signature,
the notes of the system, and the pushes with the white text between them; every line of it
goes to the body, to a comment or to a crosspost.  Comments carry no year, which is
inferred from their order.
-/

import Pttbbs.Lib.Regex
import Pttbbs.PostSvc.MergeComments

namespace Pttbbs.PostSvc

open Pttbbs.Lib

/-! ### Patterns -/

section Patterns

open Regex

/-- `\d{1,3}\.\d{1,3}\.\d{1,3}\.(?:\d{1,3}|\*)`. -/
def ipv4Pattern : Regex :=
  let part := upTo digit 3
  chain [part, literal (utf8 "."), part, literal (utf8 "."), part, literal (utf8 "."),
    alt part (literal (utf8 "*"))]

def hexGroups : Regex :=
  seq (upTo hexDigit 4) (star (seq (literal (utf8 ":")) (upTo hexDigit 4)))

def ipv6Patterns : List Regex :=
  let part := upTo hexDigit 4
  let parted := seq part (literal (utf8 ":"))
  [chain [hexGroups, literal (utf8 "::"), optional hexGroups],
    chain [literal (utf8 "::"), optional hexGroups],
    chain [parted, parted, parted, parted, parted, parted, parted, part]]

def ipPattern : Regex := choice ipv4Pattern ipv6Patterns

/-- `\d{2}/\d{2}(?:\s+\d{2}:\d{2}(?::\d{2})?)?`. -/
def datePattern : Regex :=
  let two := seq digit digit
  chain [two, literal (utf8 "/"), two, optional (chain [plus space, two, literal (utf8 ":"), two,
    optional (seq (literal (utf8 ":")) two)])]

def pushRegex : Regex :=
  chain [group 1 (choice (literal (utf8 "推")) [literal (utf8 "噓"), literal (utf8 "→"),
    literal (utf8 "★")]), star space, group 2 (plus (word [])), star space,
    literal (utf8 ":"), group 3 (star any), ending]

def oldRecommendTailRegex : Regex :=
  chain [plus space, literal (utf8 "推"),
    alt (chain [star space, group 1 ipPattern, plus space]) (upTo space 3),
    group 2 datePattern, star space, ending]

def nonOldTailRegex : Regex :=
  chain [plus space, optional (seq (group 1 ipPattern) (plus space)), group 2 datePattern,
    star space, ending]

def crosspostLogRegex : Regex :=
  chain [literal (utf8 "※"), star space, group 1 (plus (word [])), star space,
    literal (utf8 ":"), star space, literal (utf8 "轉錄至看板"), plus space,
    group 2 (plus (word (utf8 "-."))), group 3 (star any), ending]

def crosspostFromRegex : Regex :=
  chain [literal (utf8 "※"), star space, literal (utf8 "[本文轉錄自"), plus space,
    group 1 (plus (word (utf8 "-."))), plus space, literal (utf8 "看板"), star space,
    optional (group 2 (plus (word (utf8 "-.")))), literal (utf8 "]")]

def editMarkRegex : Regex :=
  chain [literal (utf8 "※"), star space, literal (utf8 "編輯:")]

end Patterns

/-! ### Lines -/

def cleanLine (line : Bytes) : Bytes := trimSpace (stripANSI line)

def isPushLine (clean : Bytes) : Bool :=
  (pushRegex.findStart? clean).isSome &&
    ((nonOldTailRegex.find? clean).isSome || (oldRecommendTailRegex.find? clean).isSome)

def isEndMark (line : Bytes) : Bool :=
  trimRight (utf8 "\r ") (stripANSI line) = utf8 "--"

def isSystemLine (clean : Bytes) : Bool :=
  (utf8 "※").isPrefixOf clean || (utf8 "◆").isPrefixOf clean

def isEditMark (line : Bytes) : Bool := (editMarkRegex.findStart? (cleanLine line)).isSome

/-! ### Dates -/

/-- The calendar of the local zone, the decoder of Big5, `net.ParseIP` and
`strings.EqualFold`. -/
structure ArticleEnv where
  decodeSGR66 : Bytes → Bytes
  /-- Year, month and day. -/
  calendar : Int64 → Int × Int × Int
  /-- `time.Date(…).Unix()`. -/
  unixTime : Int → Int → Int → Int → Int → Int → Int64
  parseIP : Bytes → Bool
  equalFold : Bytes → Bytes → Bool

/-- Every space as one blank; the counter skips the rest of a space. -/
def despaceFrom : Nat → Bytes → Bytes
  | _, [] => []
  | 0, first :: rest =>
      match spaceEncodings.find? (fun pattern => pattern.isPrefixOf (first :: rest)) with
      | some pattern => blank :: despaceFrom (pattern.length - 1) rest
      | none => first :: despaceFrom 0 rest
  | skip + 1, _ :: rest => despaceFrom skip rest

def fields (text : Bytes) : List Bytes :=
  (splitOn blank (despaceFrom 0 text)).filter (· ≠ [])

/-- `strconv.Atoi`, which refuses what is no number or too large. -/
def atoi? (text : Bytes) : Option Int :=
  let parts := signOf text
  match parseNat? parts.2 with
  | none => none
  | some value =>
      if parts.1 then if value ≤ 2 ^ 63 then some (-value) else none
      else if value < 2 ^ 63 then some value else none

structure DateState where
  year : Int
  month : Int
  day : Int

/-- Hour, minute and second; what cannot be read is zero. -/
def timeOfDay (parts : List Bytes) : Int × Int × Int :=
  match parts with
  | _ :: time :: _ =>
      match splitOn 58 time with
      | hour :: minute :: rest =>
          ((parseInt64 hour).toInt, (parseInt64 minute).toInt,
            match rest with
            | second :: _ => (parseInt64 second).toInt
            | [] => 0)
      | _ => (0, 0, 0)
  | _ => (0, 0, 0)

structure ReadDate where
  month : Int
  day : Int
  hour : Int
  minute : Int
  second : Int

def readDate (dateStr : Bytes) : Option ReadDate :=
  match fields dateStr with
  | [] => none
  | first :: rest =>
      match splitOn 47 first with
      | monthText :: dayText :: _ =>
          match atoi? monthText, atoi? dayText with
          | some month, some day =>
              let (hour, minute, second) := timeOfDay (first :: rest)
              some ⟨month, day, hour, minute, second⟩
          | _, _ => none
      | _ => none

def ReadDate.inYear (env : ArticleEnv) (read : ReadDate) (year : Int) : Int64 :=
  env.unixTime year read.month read.day read.hour read.minute read.second

def rollDate (env : ArticleEnv) (dateStr : Bytes) (date : DateState) (lastTs : Int64) :
    Int64 × DateState :=
  match readDate dateStr with
  | none => (lastTs, date)
  | some read =>
      let year :=
        if read.month < date.month || (read.month = date.month && read.day < date.day) then
          date.year + 1
        else date.year
      let ts := read.inYear env year
      (if ts < lastTs then lastTs + 1 else ts, ⟨year, read.month, read.day⟩)

/-! ### Comments -/

def isValidIP (env : ArticleEnv) (text : Bytes) : Bool :=
  if (utf8 ".*").isSuffixOf text then
    let front := text.take (text.length - 2)
    if (splitOn 46 front).length = 3 then env.parseIP (front ++ utf8 ".1") else env.parseIP text
  else env.parseIP text

structure PushLine where
  author : Bytes
  content : Bytes
  ip : Bytes
  dateStr : Bytes
  tag : Bytes
  legacyType : UInt8

/-- The content before a tail, and the address and the date in the tail. -/
def splitTail (env : ArticleEnv) (tail : Regex.Match) (rawContent : Bytes) :
    Bytes × Bytes × Bytes :=
  let candidate := tail.text rawContent 1
  (trimSpace (rawContent.take tail.start),
    if (tail.range? 1).isSome && isValidIP env candidate then candidate else [],
    tail.text rawContent 2)

def parsePush (env : ArticleEnv) (clean : Bytes) : Option PushLine :=
  (pushRegex.findStart? clean).map fun found =>
    let frontTag := found.text clean 1
    let author := found.text clean 2
    let rawContent := found.text clean 3
    let old := if frontTag = utf8 "→" then oldRecommendTailRegex.find? rawContent else none
    match old with
    | some tail =>
        let (content, ip, dateStr) := splitTail env tail rawContent
        ⟨author, content, ip, dateStr, utf8 "推", legacyTypeOldRecommend⟩
    | none =>
        let legacyType :=
          if frontTag = utf8 "推" then legacyTypePush
          else if frontTag = utf8 "噓" then legacyTypeBoo
          else legacyTypeArrow
        match nonOldTailRegex.find? rawContent with
        | some tail =>
            let (content, ip, dateStr) := splitTail env tail rawContent
            ⟨author, content, ip, dateStr, frontTag, legacyType⟩
        | none => ⟨author, trimSpace rawContent, [], [], frontTag, legacyType⟩

structure CommentState where
  bodyLines : List Bytes
  comments : List ParsedComment
  lastTs : Int64
  date : DateState

def parseCommentLine (env : ArticleEnv) (defaultAuthor : Bytes) (state : CommentState)
    (line : Bytes) : CommentState :=
  let clean := cleanLine line
  if clean = [] then state
  else if isSystemLine clean then { state with bodyLines := state.bodyLines ++ [line] }
  else
    match parsePush env clean with
    | some push =>
        let (commentTs, date) :=
          if push.dateStr ≠ [] then rollDate env push.dateStr state.date state.lastTs
          else (state.lastTs, state.date)
        let commentTs := if commentTs < state.lastTs then state.lastTs + 1 else commentTs
        { state with
          lastTs := commentTs
          date := date
          comments := state.comments ++
            [⟨push.author, push.content, push.ip, commentTs, commentTs, push.tag,
              push.legacyType⟩] }
    | none =>
        { state with
          comments := state.comments ++
            [⟨defaultAuthor, clean, [], state.lastTs, state.lastTs, utf8 "white", legacyTypeArrow⟩] }

/-! ### The article -/

structure ParsedCrosspost where
  srcBoard : Bytes
  srcFile : Bytes
  targetBoard : Bytes
  targetFile : Bytes
  creatorName : Bytes
  ctime : Int64
deriving DecidableEq

structure ParsedArticle where
  bodyContent : Bytes
  comments : List ParsedComment
  crossposts : List ParsedCrosspost
deriving DecidableEq

structure ArticleInfo where
  defaultAuthor : Bytes
  postCtime : Int64
  community : Bytes
  postFile : Bytes

def lastIdx (test : Bytes → Bool) (lines : List Bytes) : Option Nat :=
  (lines.zipIdx.reverse.find? fun line => test line.1).map Prod.snd

/-- Where the body ends: after the last end mark, or before the first line of the system's
signature or of a push. -/
def splitIdx (lines : List Bytes) : Nat :=
  match lastIdx isEndMark lines with
  | some index => index + 1
  | none =>
      (lines.findIdx? fun line => (utf8 "※ 發信站:").isPrefixOf (cleanLine line) ||
        isPushLine (cleanLine line)).getD lines.length

def originNote (info : ArticleInfo) (line : Bytes) : Option ParsedCrosspost :=
  (crosspostFromRegex.findStart? (cleanLine line)).map fun found =>
    ⟨found.text (cleanLine line) 1, found.text (cleanLine line) 2, info.community, info.postFile,
      info.defaultAuthor, info.postCtime⟩

def firstDate (env : ArticleEnv) (info : ArticleInfo) : DateState :=
  let (year, month, day) := env.calendar info.postCtime
  ⟨year, month, day⟩

def crosspostLog (env : ArticleEnv) (info : ArticleInfo) (clean : Bytes) :
    Option ParsedCrosspost :=
  (crosspostLogRegex.findStart? clean).map fun found =>
    let tail := found.text clean 3
    let dateStr :=
      match nonOldTailRegex.find? tail with
      | some date => date.text tail 2
      | none => []
    let ctime :=
      if dateStr ≠ [] then (rollDate env dateStr (firstDate env info) info.postCtime).1
      else info.postCtime
    ⟨info.community, info.postFile, found.text clean 2, utf8 "-", found.text clean 1, ctime⟩

/-- The first line of the system that is no edit mark. -/
def firstSysIdx (candidates : List Bytes) : Option Nat :=
  candidates.findIdx? fun line =>
    isSystemLine (cleanLine line) && !(utf8 "※ 編輯:").isPrefixOf (cleanLine line)

def firstPushIdx (candidates : List Bytes) : Option Nat :=
  let searchStart := (firstSysIdx candidates).getD 0
  ((candidates.drop searchStart).findIdx? fun line => isPushLine (cleanLine line)).map
    (searchStart + ·)

structure RouteState where
  bodyLines : List Bytes
  crossposts : List ParsedCrosspost
  commentRawLines : List Bytes

def routeLine (env : ArticleEnv) (info : ArticleInfo) (firstPush : Option Nat)
    (state : RouteState) (entry : Bytes × Nat) : RouteState :=
  let (line, index) := entry
  let clean := cleanLine line
  match crosspostLog env info clean with
  | some crosspost => { state with crossposts := state.crossposts ++ [crosspost] }
  | none =>
      if isSystemLine clean then { state with bodyLines := state.bodyLines ++ [line] }
      else if firstPush.all (index < ·) then
        { state with bodyLines := state.bodyLines ++ [line] }
      else if clean = [] then state
      else { state with commentRawLines := state.commentRawLines ++ [line] }

def dedupEditMarks (bodyLines : List Bytes) : List Bytes :=
  match lastIdx isEditMark bodyLines with
  | none => bodyLines
  | some last =>
      (bodyLines.zipIdx.filter fun line => !(isEditMark line.1 && line.2 ≠ last)).map Prod.fst

def finishBody (bodyLines : List Bytes) : Bytes :=
  let bodyContent := joinWith [newline] bodyLines
  if bodyContent ≠ [] && !([newline].isSuffixOf bodyContent) then bodyContent ++ [newline]
  else bodyContent

def parseLines (env : ArticleEnv) (info : ArticleInfo) (noMerge : Bool) (rawLines : List Bytes) :
    ParsedArticle :=
  let bodyLines := rawLines.take (splitIdx rawLines)
  let candidates := rawLines.drop (splitIdx rawLines)
  let routed := candidates.zipIdx.foldl (routeLine env info (firstPushIdx candidates))
    ⟨bodyLines, bodyLines.filterMap (originNote info), []⟩
  let parsed := routed.commentRawLines.foldl (parseCommentLine env info.defaultAuthor)
    ⟨routed.bodyLines, [], info.postCtime, firstDate env info⟩
  { bodyContent := finishBody (dedupEditMarks parsed.bodyLines)
    comments := if noMerge then parsed.comments
      else mergeConsecutiveComments env.equalFold parsed.comments
    crossposts := routed.crossposts }

def articleLines (env : ArticleEnv) (rawBytes : Bytes) (isBig5 : Bool) : List Bytes :=
  splitOn newline (if isBig5 && !validUtf8 rawBytes then env.decodeSGR66 rawBytes else rawBytes)

def parseArticleText (env : ArticleEnv) (rawBytes : Bytes) (info : ArticleInfo)
    (isBig5 noMerge : Bool) : ParsedArticle :=
  parseLines env info noMerge (articleLines env rawBytes isBig5)

end Pttbbs.PostSvc
