/-
How posts and comments are written to the board file.

Formatting of times, case folding of names and the Big5 tables come from the
run-time environment and are fields of the configuration.  The Big5 encoder is
written out over its table: it reads the text rune by rune and has no state.
-/

import Pttbbs.PostSvc.Model

namespace Pttbbs.PostSvc

open Pttbbs.Lib

structure Config where
  isBig5 : Bool := false
  minReplyRunes : Nat := 20
  shardID : UInt64 := 0
  numShards : UInt64 := 1
  externalCache : Bool := false
  /-- `u2bTable` of big5uao; zero where a character has no Big5 form. -/
  u2bTable : Nat → UInt16 := fun rune => if rune < 0x80 then UInt16.ofNat rune else 0
  /-- `big5uao.Decode`. -/
  decodeBig5 : Bytes → Bytes := id
  /-- `big5uao.DecodeSGR66`. -/
  decodeSGR66 : Bytes → Bytes := id
  /-- `time.Unix(t, 0).Format("01/02/2006 15:04")` in the server's time zone. -/
  formatTime : Int64 → Bytes := formatInt64
  /-- `strings.EqualFold`. -/
  equalFold : Bytes → Bytes → Bool := fun left right => left = right

/-- The Big5 bytes of one rune; a question mark stands for what has none. -/
def encodeRune (table : Nat → UInt16) (rune : Nat × Nat) : Bytes :=
  if rune.1 = runeError && rune.2 = 1 then [63]
  else
    let code := if rune.1 < 0x10000 then (table rune.1).toNat else 0
    let code := if code = 0 then 63 else code
    if 0xff < code then [UInt8.ofNat (code / 256), UInt8.ofNat (code % 256)]
    else [UInt8.ofNat code]

/-- `big5uao.Encode`. -/
def encodeBig5 (table : Nat → UInt16) (text : Bytes) : Bytes :=
  (runes text).flatMap (encodeRune table)

def Config.encodeText (cfg : Config) (text : Bytes) : Bytes :=
  if cfg.isBig5 then encodeBig5 cfg.u2bTable text else text

def Config.decodeText (cfg : Config) (bytes : Bytes) : Bytes :=
  if cfg.isBig5 && !validUtf8 bytes then cfg.decodeSGR66 bytes else bytes

def bar : UInt8 := 124

/-- A comment line as shown: without escape sequences, tabs as two blanks. -/
def visibleLine (line : Bytes) : Bytes := replaceAll [9] [blank, blank] (stripANSI line)

def visibleLines (content : Bytes) : List Bytes :=
  ((contentLines content).map visibleLine).filter (fun line => line ≠ [])

def continuationLine (line : Bytes) : Bytes := [bar, blank] ++ line ++ [newline]

/-- Author, first line, creation and floor of a comment, between bars. -/
def headLine (author text creation mark : Bytes) (sequence : UInt32) : Bytes :=
  [bar] ++ author ++ [bar] ++ text ++ [bar] ++ creation ++ [bar] ++ mark ++
    formatNat sequence.toNat ++ [newline]

def Config.creation (cfg : Config) (comment : Comment) : Bytes :=
  if comment.ip ≠ [] && comment.ip ≠ utf8 "-" then
    comment.ip ++ [blank] ++ cfg.formatTime comment.createdAt
  else cfg.formatTime comment.createdAt

def modMark (comment : Comment) : Bytes := if 0 < comment.modifiedAt then utf8 "~" else []

def Config.deletionNotice (cfg : Config) (deletion : Deletion) : Bytes :=
  let reason := if validUtf8 deletion.reason then deletion.reason
    else cfg.decodeBig5 deletion.reason
  let reason := trimSpace reason
  if deletion.deleted || reason = utf8 "自刪" then utf8 "留言已刪除"
  else if reason ≠ [] then
    let reason := trimRight [carriageReturn, newline] reason
    let reason := replaceAll (utf8 "--") (utf8 "-") reason
    let reason := replaceAll [bar] (utf8 "-") reason
    utf8 "留言已隱藏 (" ++ reason ++ utf8 ")"
  else utf8 "留言已隱藏"

def formatCommentBlock (cfg : Config) (comment : Comment) : Bytes :=
  if comment.deletion.deletedOrRemoved then
    headLine (comment.creatorName ++ utf8 "!") (cfg.deletionNotice comment.deletion)
      (cfg.creation comment) (modMark comment) comment.sequence
  else
    let lines := visibleLines comment.content
    headLine comment.creatorName (lines.headD []) (cfg.creation comment) (modMark comment)
        comment.sequence ++
      (lines.drop 1).flatMap continuationLine

def formatMergedCommentLines (content : Bytes) : Bytes :=
  (visibleLines content).flatMap continuationLine

def endedContent (content : Bytes) : Bytes :=
  if content ≠ [] ∧ content.getLast? ≠ some newline then content ++ [newline] else content

def renderPostWithComments (cfg : Config) (post : Post) (comments : List Comment)
    (asBig5 : Bool) : Bytes :=
  let text := endedContent post.content ++ comments.flatMap (formatCommentBlock cfg)
  if asBig5 then encodeBig5 cfg.u2bTable text else text

def deletedNotice (deletion : Deletion) : Bytes :=
  let reason :=
    if deletion.reason = [] then
      if deletion.removed then utf8 "本文已被隱藏" else utf8 "本文已被刪除"
    else deletion.reason
  utf8 "[" ++ reason ++ utf8 "]\n"

end Pttbbs.PostSvc
