/-
The records of post.svc and the text rules that apply to them.

Names, titles and contents are byte strings.  Times and the numbers a header
line carries are signed 64-bit; ids, floors and revisions are unsigned of the
width the keys give them.  Counters live in SQLite and are plain integers.
-/

import Pttbbs.Lib.Utf8

namespace Pttbbs.PostSvc

open Pttbbs.Lib

/-- `firstlogin << 32 | unum`; zero means unknown. -/
abbrev PersonID := UInt64

abbrev VoteType := Int8

def voteNeutral : VoteType := 0

def voteUp : VoteType := 1

def voteDown : VoteType := -1

/-- How a post or comment was taken down: deleted by its creator, or removed by
somebody else, who may give a reason. -/
structure Deletion where
  deleted : Bool := false
  removed : Bool := false
  deletedAt : Int64 := 0
  modPersonName : Bytes := []
  modPersonID : PersonID := 0
  reason : Bytes := []
deriving DecidableEq

def Deletion.deletedOrRemoved (deletion : Deletion) : Bool :=
  deletion.deleted || deletion.removed

structure Post where
  id : UInt64 := 0
  parentID : UInt64 := 0
  community : Bytes := []
  postFile : Bytes := []
  title : Bytes := []
  creatorName : Bytes := []
  creatorID : PersonID := 0
  createdAt : Int64 := 0
  modified : Int64 := 0
  filemode : Int64 := 0
  money : Int64 := 0
  upvotes : Int := 0
  downvotes : Int := 0
  numComments : Int := 0
  numCrossposts : Int := 0
  encoding : Bytes := []
  deletion : Deletion := {}
  content : Bytes := []
  demotedToComment : Bool := false
deriving DecidableEq

structure Comment where
  postID : UInt64 := 0
  sequence : UInt32 := 0
  creatorName : Bytes := []
  creatorID : PersonID := 0
  ip : Bytes := []
  createdAt : Int64 := 0
  modifiedAt : Int64 := 0
  lastCommentAt : Int64 := 0
  deletion : Deletion := {}
  legacyType : UInt8 := 0
  content : Bytes := []
  isMerged : Bool := false
deriving DecidableEq

structure CrosspostRecord where
  id : UInt64 := 0
  sourcePostID : UInt64 := 0
  targetCommunity : Bytes := []
  targetPostFile : Bytes := []
  creatorName : Bytes := []
  creatorID : PersonID := 0
  createdAt : Int64 := 0
deriving DecidableEq

structure VoteRecord where
  postID : UInt64 := 0
  personName : Bytes := []
  personID : PersonID := 0
  vote : VoteType := 0
  createdAt : Int64 := 0
  ip : Bytes := []
deriving DecidableEq

structure PostRevision where
  postID : UInt64 := 0
  revision : UInt32 := 0
  community : Bytes := []
  postFile : Bytes := []
  title : Bytes := []
  creatorName : Bytes := []
  creatorID : PersonID := 0
  createdAt : Int64 := 0
  editedAt : Int64 := 0
  editorName : Bytes := []
  editorID : PersonID := 0
  action : Bytes := []
  reason : Bytes := []
  content : Bytes := []
deriving DecidableEq

structure CommentRevision where
  postID : UInt64 := 0
  sequence : UInt32 := 0
  revision : UInt32 := 0
  creatorName : Bytes := []
  creatorID : PersonID := 0
  createdAt : Int64 := 0
  editedAt : Int64 := 0
  editorName : Bytes := []
  editorID : PersonID := 0
  ip : Bytes := []
  legacyType : UInt8 := 0
  action : Bytes := []
  reason : Bytes := []
  content : Bytes := []
deriving DecidableEq

/-! ### Header values -/

def isLineBreak (byte : UInt8) : Bool := byte = carriageReturn || byte = newline

/-- `strings.FieldsFunc` for line breaks: the non-empty runs between them. -/
def lineFields (text : Bytes) : List Bytes :=
  (splitOn newline (text.map (fun byte => if isLineBreak byte then newline else byte))).filter
    (fun piece => piece ≠ [])

def headerValue (text : Bytes) : Bytes :=
  if text.any isLineBreak then joinWith [blank] (lineFields text) else text

def LineFree (text : Bytes) : Prop := text.any isLineBreak = false

instance (text : Bytes) : Decidable (LineFree text) := inferInstanceAs (Decidable (_ = _))

theorem headerValue_of_lineFree {text : Bytes} (free : LineFree text) :
    headerValue text = text := by
  unfold headerValue
  rw [free]
  rfl

theorem headerValue_lineFree (text : Bytes) : LineFree (headerValue text) := by
  unfold LineFree headerValue
  split
  · apply List.any_eq_false.mpr
    intro byte member broken
    rcases mem_joinWith member with inBlank | ⟨piece, inFields, inside⟩
    · rw [List.mem_singleton.mp inBlank] at broken
      exact absurd broken (by decide)
    · have inSplit := (List.mem_filter.mp inFields).1
      have inMapped := mem_of_mem_splitOn inSplit inside
      obtain ⟨source, _present, same⟩ := List.mem_map.mp inMapped
      have notNewline : byte ≠ newline := fun equal =>
        not_mem_of_mem_splitOn inSplit (by rw [← equal]; exact inside)
      split at same
      · exact notNewline same.symm
      · rename_i fine
        rw [same] at fine
        exact fine broken
  · rename_i fine
    exact Bool.eq_false_iff.mpr fine

@[simp] theorem headerValue_headerValue (text : Bytes) :
    headerValue (headerValue text) = headerValue text :=
  headerValue_of_lineFree (headerValue_lineFree text)

theorem newline_not_mem_of_lineFree {text : Bytes} (free : LineFree text) : newline ∉ text := by
  intro member
  have fine := List.any_eq_false.mp free newline member
  exact fine (by decide)

/-! ### Taking down and restoring -/

/-- `Deletion.Delete`: by its creator it becomes deleted, by anybody else it
becomes removed for a reason. -/
def Deletion.delete (creatorName : Bytes) (creatorID : PersonID) (byName : Bytes)
    (byID : PersonID) (reason : Bytes) (time : Int64) : Deletion :=
  let self :=
    if byID ≠ 0 ∧ creatorID ≠ 0 then byID = creatorID else byName = creatorName
  if self then { deleted := true, deletedAt := time }
  else
    { removed := true
      deletedAt := time
      modPersonName := headerValue byName
      modPersonID := byID
      reason := headerValue reason }

theorem Deletion.delete_deletedOrRemoved (creatorName : Bytes) (creatorID : PersonID)
    (byName : Bytes) (byID : PersonID) (reason : Bytes) (time : Int64) :
    (Deletion.delete creatorName creatorID byName byID reason time).deletedOrRemoved = true := by
  unfold Deletion.delete
  dsimp only
  by_cases self : if byID ≠ 0 ∧ creatorID ≠ 0 then byID = creatorID else byName = creatorName
  · rw [if_pos self]
    rfl
  · rw [if_neg self]
    rfl

theorem Deletion.delete_modPersonID (creatorName : Bytes) (creatorID : PersonID) (byName : Bytes)
    (byID : PersonID) (reason : Bytes) (time other : Int64) :
    (Deletion.delete creatorName creatorID byName byID reason time).modPersonID =
      (Deletion.delete creatorName creatorID byName byID reason other).modPersonID := by
  unfold Deletion.delete
  dsimp only
  by_cases self : if byID ≠ 0 ∧ creatorID ≠ 0 then byID = creatorID else byName = creatorName
  · rw [if_pos self, if_pos self]
  · rw [if_neg self, if_neg self]

def Deletion.restore : Deletion := {}

/-! ### Comment lines -/

def maxCommentLines : Nat := 5

def lineTail : Bytes := [carriageReturn, blank]

def contentLines (content : Bytes) : List Bytes :=
  ((splitOn newline content).map (trimRight lineTail)).filter (fun line => line ≠ [])

theorem contentLines_append (left right : Bytes) :
    contentLines (left ++ newline :: right) = contentLines left ++ contentLines right := by
  unfold contentLines
  rw [splitOn_append_cons, List.map_append, List.filter_append]

private theorem trimmed_lines_concat (text : Bytes) :
    (splitOn newline (text ++ [carriageReturn])).map (trimRight lineTail) =
      (splitOn newline text).map (trimRight lineTail) := by
  induction text with
  | nil => decide
  | cons byte rest ih =>
      rw [List.cons_append, splitOn, splitOn]
      split
      · rw [List.map_cons, List.map_cons, ih]
      · cases whole : splitOn newline (rest ++ [carriageReturn]) with
        | nil => exact absurd whole (splitOn_ne_nil newline _)
        | cons first others =>
            cases part : splitOn newline rest with
            | nil => exact absurd part (splitOn_ne_nil newline _)
            | cons line lines =>
                rw [whole, part, List.map_cons, List.map_cons, List.cons.injEq] at ih
                dsimp only
                rw [List.map_cons, List.map_cons, trimRight_cons lineTail byte first,
                  trimRight_cons lineTail byte line, ih.1, ih.2]

theorem contentLines_trimRight (text : Bytes) :
    contentLines (trimRight [carriageReturn, newline] text) = contentLines text := by
  induction text using List.reverseRecOn with
  | nil => rfl
  | append_singleton text last ih =>
      rw [trimRight_concat]
      split
      · rename_i cut
        rw [ih]
        rcases List.mem_cons.mp cut with isReturn | rest
        · subst isReturn
          unfold contentLines
          rw [trimmed_lines_concat]
        · rw [List.mem_singleton.mp rest, contentLines_append]
          exact (List.append_nil _).symm
      · rfl

def countCommentLines (content : Bytes) : Nat :=
  let counted := (contentLines content).length
  if counted = 0 ∧ trimSpace content ≠ [] then 1 else counted

def truncateCommentLines (content : Bytes) (maxLines : Nat) : Bytes :=
  if maxLines = 0 then content
  else joinWith [newline] ((contentLines content).take maxLines)

/-! ### Net new content of a reply -/

def quotedPrefixes : List Bytes :=
  [":", ">", "：", "作者:", "標題:", "時間:", "看板:", "--", "※ 發信站:", "※ 文章網址:",
    "※ 編輯:"].map utf8

def extractNetNewContent (body : Bytes) : Bytes :=
  joinWith [newline] (((splitOn newline body).map trimSpace).filter (fun line =>
    line ≠ [] && !quotedPrefixes.any (fun quoted => quoted.isPrefixOf line)))

/-! ### Terminal escape sequences -/

def escape : UInt8 := 27

/-- The length of an operating system command after `ESC ]`: lazily up to a bell
or a string terminator, never across a line break. -/
def oscLength : Bytes → Option Nat
  | [] => none
  | byte :: rest =>
      if byte = 7 then some 1
      else if byte = escape && rest.head? = some 92 then some 2
      else if byte = newline then none
      else (oscLength rest).map (· + 1)

/-- How many bytes after an escape byte belong to the sequence it starts.  The
alternatives are tried in the order of the regular expression. -/
def escapeLength (rest : Bytes) : Nat :=
  let control :=
    match rest with
    | 91 :: parameters =>
        let given := parameters.takeWhile (fun byte =>
          isDigitByte byte || byte = 59 || byte = 63)
        match parameters.drop given.length with
        | final :: _ =>
            if (97 ≤ final && final ≤ 122) || (65 ≤ final && final ≤ 90) then
              some (given.length + 2)
            else none
        | [] => none
    | 93 :: command => (oscLength command).map (· + 1)
    | _ => none
  match control with
  | some length => length
  | none =>
      let intermediate := rest.takeWhile (fun byte => 32 ≤ byte && byte ≤ 47)
      match rest.drop intermediate.length with
      | final :: _ => if 64 ≤ final && final ≤ 126 then intermediate.length + 1 else 0
      | [] => 0

def stripFrom : Nat → Bytes → Bytes
  | _, [] => []
  | 0, byte :: rest =>
      if byte = escape then stripFrom (escapeLength rest) rest
      else byte :: stripFrom 0 rest
  | skip + 1, _ :: rest => stripFrom skip rest

def stripANSI (text : Bytes) : Bytes := stripFrom 0 text

end Pttbbs.PostSvc
