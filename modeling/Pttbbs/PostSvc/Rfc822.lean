/-
The record formats of posts, comments, revisions and crossposts.

Each record is a list of header lines, a blank line and a body.  The encoders
list the headers in the order they are written; optional headers are written
only when the source writes them.  Reading back an encoded record gives the
stored form of the record: header fields after `headerValue`, non-positive
optional times as zero.
-/

import Pttbbs.Lib.HeaderRecord
import Pttbbs.PostSvc.Model

namespace Pttbbs.PostSvc

open Pttbbs.Lib

def utf8Name : Bytes := utf8 "utf-8"

def trueText : Bytes := utf8 "true"

/-! ### Encoders -/

def encodingHeader : Bytes × Bytes := (utf8 "Encoding", utf8Name)

def deletionHeaders (deletion : Deletion) : Headers :=
  (if deletion.deleted then [(utf8 "Deleted", trueText)] else []) ++
  (if deletion.removed then [(utf8 "Removed", trueText)] else []) ++
  (if 0 < deletion.deletedAt then
    [(utf8 "DeletedAt", formatInt64 deletion.deletedAt)] else []) ++
  (if deletion.modPersonName ≠ [] then
    [(utf8 "ModPersonName", headerValue deletion.modPersonName)] else []) ++
  (if deletion.modPersonID ≠ 0 then
    [(utf8 "ModPersonID", formatNat deletion.modPersonID.toNat)] else []) ++
  (if deletion.reason ≠ [] then
    [(utf8 "Reason", headerValue deletion.reason)] else [])

def postHeaders (post : Post) : Headers :=
  [encodingHeader,
    (utf8 "Community", headerValue post.community),
    (utf8 "ParentID", formatNat post.parentID.toNat),
    (utf8 "PostFile", headerValue post.postFile),
    (utf8 "Title", headerValue post.title),
    (utf8 "CreatorName", headerValue post.creatorName),
    (utf8 "CreatorID", formatNat post.creatorID.toNat),
    (utf8 "CreatedAt", formatInt64 post.createdAt),
    (utf8 "Modified",
      formatInt64 (if post.modified = 0 then post.createdAt else post.modified)),
    (utf8 "Filemode", formatInt64 post.filemode)] ++
  (if post.money ≠ 0 then [(utf8 "Money", formatInt64 post.money)] else []) ++
  deletionHeaders post.deletion

def encodeRFC822Post (post : Post) : Bytes := writeRecord (postHeaders post) post.content

def commentHeaders (comment : Comment) : Headers :=
  [encodingHeader,
    (utf8 "CreatorName", headerValue comment.creatorName),
    (utf8 "CreatorID", formatNat comment.creatorID.toNat),
    (utf8 "CreatedAt", formatInt64 comment.createdAt)] ++
  (if 0 < comment.modifiedAt then
    [(utf8 "ModifiedAt", formatInt64 comment.modifiedAt)] else []) ++
  (if 0 < comment.lastCommentAt then
    [(utf8 "LastCommentAt", formatInt64 comment.lastCommentAt)] else []) ++
  [(utf8 "IP", headerValue comment.ip),
    (utf8 "LegacyType", formatNat comment.legacyType.toNat)] ++
  deletionHeaders comment.deletion

def encodeRFC822Comment (comment : Comment) : Bytes :=
  writeRecord (commentHeaders comment) comment.content

def actionHeaders (action reason : Bytes) : Headers :=
  (if action ≠ [] then [(utf8 "Action", headerValue action)] else []) ++
  (if reason ≠ [] then [(utf8 "Reason", headerValue reason)] else [])

def postRevisionHeaders (revision : PostRevision) : Headers :=
  [encodingHeader,
    (utf8 "PostID", formatNat revision.postID.toNat),
    (utf8 "Revision", formatNat revision.revision.toNat),
    (utf8 "Community", headerValue revision.community),
    (utf8 "PostFile", headerValue revision.postFile),
    (utf8 "Title", headerValue revision.title),
    (utf8 "CreatorName", headerValue revision.creatorName),
    (utf8 "CreatorID", formatNat revision.creatorID.toNat),
    (utf8 "CreatedAt", formatInt64 revision.createdAt),
    (utf8 "EditedAt", formatInt64 revision.editedAt),
    (utf8 "EditorName", headerValue revision.editorName),
    (utf8 "EditorID", formatNat revision.editorID.toNat)] ++
  actionHeaders revision.action revision.reason

def encodeRFC822PostRevision (revision : PostRevision) : Bytes :=
  writeRecord (postRevisionHeaders revision) revision.content

def commentRevisionHeaders (revision : CommentRevision) : Headers :=
  [encodingHeader,
    (utf8 "PostID", formatNat revision.postID.toNat),
    (utf8 "Sequence", formatNat revision.sequence.toNat),
    (utf8 "Revision", formatNat revision.revision.toNat),
    (utf8 "CreatorName", headerValue revision.creatorName),
    (utf8 "CreatorID", formatNat revision.creatorID.toNat),
    (utf8 "CreatedAt", formatInt64 revision.createdAt),
    (utf8 "EditedAt", formatInt64 revision.editedAt),
    (utf8 "EditorName", headerValue revision.editorName),
    (utf8 "EditorID", formatNat revision.editorID.toNat),
    (utf8 "IP", headerValue revision.ip),
    (utf8 "LegacyType", formatNat revision.legacyType.toNat)] ++
  actionHeaders revision.action revision.reason

def encodeRFC822CommentRevision (revision : CommentRevision) : Bytes :=
  writeRecord (commentRevisionHeaders revision) revision.content

def crosspostHeaders (crosspost : CrosspostRecord) : Headers :=
  [encodingHeader,
    (utf8 "SourcePostID", formatNat crosspost.sourcePostID.toNat),
    (utf8 "TargetCommunity", headerValue crosspost.targetCommunity),
    (utf8 "TargetPostFile", headerValue crosspost.targetPostFile),
    (utf8 "CreatorName", headerValue crosspost.creatorName),
    (utf8 "CreatorID", formatNat crosspost.creatorID.toNat),
    (utf8 "CreatedAt", formatInt64 crosspost.createdAt)]

def encodeRFC822Crosspost (crosspost : CrosspostRecord) : Bytes :=
  writeRecord (crosspostHeaders crosspost) []

/-! ### Decoders -/

/-- `ParsePersonID` and the other 64-bit ids. -/
def parseUint64 (text : Bytes) : UInt64 := UInt64.ofNat (parseUint 64 text)

def parseUint32 (text : Bytes) : UInt32 := UInt32.ofNat (parseUint 32 text)

def parseUint8 (text : Bytes) : UInt8 := UInt8.ofNat (parseUint 8 text)

def deletionFromRFC822 (headers : Headers) : Deletion :=
  { deleted := field headers "Deleted" = trueText
    removed := field headers "Removed" = trueText
    deletedAt := parseInt64 (field headers "DeletedAt")
    modPersonName := field headers "ModPersonName"
    modPersonID := parseUint64 (field headers "ModPersonID")
    reason := field headers "Reason" }

/-- The headers and the body; a value without a blank line is all body. -/
def decodeRFC822Post (value : Bytes) : Headers × Bytes :=
  (readRecord value).getD ([], value)

def decodeRFC822Comment (postID : UInt64) (sequence : UInt32) (value : Bytes) :
    Option Comment :=
  (readRecord value).map (fun record =>
    let headers := record.1
    { postID := postID
      sequence := sequence
      creatorName := field headers "CreatorName"
      creatorID := parseUint64 (field headers "CreatorID")
      ip := field headers "IP"
      createdAt := parseInt64 (field headers "CreatedAt")
      modifiedAt := parseInt64 (field headers "ModifiedAt")
      lastCommentAt := parseInt64 (field headers "LastCommentAt")
      deletion := deletionFromRFC822 headers
      legacyType := parseUint8 (field headers "LegacyType")
      content := record.2 })

def decodeRFC822PostRevision (value : Bytes) : Option PostRevision :=
  (readRecord value).map (fun record =>
    let headers := record.1
    { postID := parseUint64 (field headers "PostID")
      revision := parseUint32 (field headers "Revision")
      community := field headers "Community"
      postFile := field headers "PostFile"
      title := field headers "Title"
      creatorName := field headers "CreatorName"
      creatorID := parseUint64 (field headers "CreatorID")
      createdAt := parseInt64 (field headers "CreatedAt")
      editedAt := parseInt64 (field headers "EditedAt")
      editorName := field headers "EditorName"
      editorID := parseUint64 (field headers "EditorID")
      action := field headers "Action"
      reason := field headers "Reason"
      content := record.2 })

def decodeRFC822CommentRevision (value : Bytes) : Option CommentRevision :=
  (readRecord value).map (fun record =>
    let headers := record.1
    { postID := parseUint64 (field headers "PostID")
      sequence := parseUint32 (field headers "Sequence")
      revision := parseUint32 (field headers "Revision")
      creatorName := field headers "CreatorName"
      creatorID := parseUint64 (field headers "CreatorID")
      createdAt := parseInt64 (field headers "CreatedAt")
      editedAt := parseInt64 (field headers "EditedAt")
      editorName := field headers "EditorName"
      editorID := parseUint64 (field headers "EditorID")
      ip := field headers "IP"
      legacyType := parseUint8 (field headers "LegacyType")
      action := field headers "Action"
      reason := field headers "Reason"
      content := record.2 })

/-- A crosspost without a blank line is all header. -/
def decodeRFC822Crosspost (value : Bytes) : CrosspostRecord :=
  let headers := ((readRecord value).map Prod.fst).getD
    ((splitOn newline value).filterMap (cut colonBlank))
  { sourcePostID := parseUint64 (field headers "SourcePostID")
    targetCommunity := field headers "TargetCommunity"
    targetPostFile := field headers "TargetPostFile"
    creatorName := field headers "CreatorName"
    creatorID := parseUint64 (field headers "CreatorID")
    createdAt := parseInt64 (field headers "CreatedAt") }

/-! ### Stored forms -/

def storedTime (time : Int64) : Int64 := if 0 < time then time else 0

def storedDeletion (deletion : Deletion) : Deletion :=
  { deleted := deletion.deleted
    removed := deletion.removed
    deletedAt := storedTime deletion.deletedAt
    modPersonName := headerValue deletion.modPersonName
    modPersonID := deletion.modPersonID
    reason := headerValue deletion.reason }

def storedComment (postID : UInt64) (sequence : UInt32) (comment : Comment) : Comment :=
  { postID := postID
    sequence := sequence
    creatorName := headerValue comment.creatorName
    creatorID := comment.creatorID
    ip := headerValue comment.ip
    createdAt := comment.createdAt
    modifiedAt := storedTime comment.modifiedAt
    lastCommentAt := storedTime comment.lastCommentAt
    deletion := storedDeletion comment.deletion
    legacyType := comment.legacyType
    content := comment.content }

def storedPostRevision (revision : PostRevision) : PostRevision :=
  { revision with
    community := headerValue revision.community
    postFile := headerValue revision.postFile
    title := headerValue revision.title
    creatorName := headerValue revision.creatorName
    editorName := headerValue revision.editorName
    action := headerValue revision.action
    reason := headerValue revision.reason }

def storedCommentRevision (revision : CommentRevision) : CommentRevision :=
  { revision with
    creatorName := headerValue revision.creatorName
    editorName := headerValue revision.editorName
    ip := headerValue revision.ip
    action := headerValue revision.action
    reason := headerValue revision.reason }

def storedCrosspost (crosspost : CrosspostRecord) : CrosspostRecord :=
  { id := 0
    sourcePostID := crosspost.sourcePostID
    targetCommunity := headerValue crosspost.targetCommunity
    targetPostFile := headerValue crosspost.targetPostFile
    creatorName := headerValue crosspost.creatorName
    creatorID := crosspost.creatorID
    createdAt := crosspost.createdAt }

/-! ### Every encoded header line can be read back -/

private def headerNames : List Bytes :=
  [utf8 "Encoding", utf8 "Deleted", utf8 "Removed", utf8 "DeletedAt", utf8 "ModPersonName",
    utf8 "ModPersonID", utf8 "Reason", utf8 "Community", utf8 "ParentID", utf8 "PostFile",
    utf8 "Title", utf8 "CreatorName", utf8 "CreatorID", utf8 "CreatedAt", utf8 "Modified",
    utf8 "Filemode", utf8 "Money", utf8 "ModifiedAt", utf8 "LastCommentAt", utf8 "IP",
    utf8 "LegacyType", utf8 "Action", utf8 "PostID", utf8 "Revision", utf8 "EditedAt",
    utf8 "EditorName", utf8 "EditorID", utf8 "Sequence", utf8 "SourcePostID",
    utf8 "TargetCommunity", utf8 "TargetPostFile"]

private theorem nameOk_of_headerNames : ∀ name ∈ headerNames, nameOk name = true := by
  decide

private theorem trueText_text : newline ∉ trueText ∧ ([] : Bytes) ≠ trueText := by
  decide

private theorem writable_text {name : Bytes} (value : Bytes) (listed : name ∈ headerNames) :
    Writable (name, headerValue value) :=
  ⟨nameOk_of_headerNames name listed, newline_not_mem_of_lineFree (headerValue_lineFree value)⟩

private theorem writable_nat {name : Bytes} (value : Nat) (listed : name ∈ headerNames) :
    Writable (name, formatNat value) :=
  ⟨nameOk_of_headerNames name listed, newline_not_mem_formatNat value⟩

private theorem writable_int {name : Bytes} (value : Int64) (listed : name ∈ headerNames) :
    Writable (name, formatInt64 value) :=
  ⟨nameOk_of_headerNames name listed, newline_not_mem_formatInt64 value⟩

private theorem writable_true {name : Bytes} (listed : name ∈ headerNames) :
    Writable (name, trueText) :=
  ⟨nameOk_of_headerNames name listed, trueText_text.1⟩

private theorem writable_encoding : Writable encodingHeader := by
  have noBreak : newline ∉ utf8Name := by decide
  exact ⟨nameOk_of_headerNames _ (by simp [headerNames, encodingHeader]), noBreak⟩

private theorem forall_mem_ite {condition : Prop} [Decidable condition] {first : Bytes × Bytes} :
    (∀ header ∈ (if condition then [first] else []), Writable header) ↔
      (condition → Writable first) := by
  split <;> simp [*]

theorem deletionHeaders_writable (deletion : Deletion) :
    ∀ header ∈ deletionHeaders deletion, Writable header := by
  simp (disch := decide) only [deletionHeaders, List.forall_mem_append, forall_mem_ite,
    writable_true, writable_int, writable_text, writable_nat, implies_true, and_self]

theorem postHeaders_writable (post : Post) :
    ∀ header ∈ postHeaders post, Writable header := by
  rw [postHeaders, List.forall_mem_append]
  refine ⟨?_, deletionHeaders_writable post.deletion⟩
  simp (disch := decide) only [List.forall_mem_append, List.forall_mem_cons, forall_mem_ite,
    writable_encoding, writable_int, writable_text, writable_nat, implies_true, and_self,
    List.not_mem_nil, false_implies]

theorem commentHeaders_writable (comment : Comment) :
    ∀ header ∈ commentHeaders comment, Writable header := by
  rw [commentHeaders, List.forall_mem_append]
  refine ⟨?_, deletionHeaders_writable comment.deletion⟩
  simp (disch := decide) only [List.forall_mem_append, List.forall_mem_cons, forall_mem_ite,
    writable_encoding, writable_int, writable_text, writable_nat, implies_true, and_self,
    List.not_mem_nil, false_implies]

private theorem actionHeaders_writable (action reason : Bytes) :
    ∀ header ∈ actionHeaders action reason, Writable header := by
  simp (disch := decide) only [actionHeaders, List.forall_mem_append, forall_mem_ite,
    writable_text, implies_true, and_self]

theorem postRevisionHeaders_writable (revision : PostRevision) :
    ∀ header ∈ postRevisionHeaders revision, Writable header := by
  rw [postRevisionHeaders, List.forall_mem_append]
  refine ⟨?_, actionHeaders_writable _ _⟩
  simp (disch := decide) only [List.forall_mem_cons, writable_encoding, writable_int,
    writable_text, writable_nat, implies_true, and_self, List.not_mem_nil, false_implies]

theorem commentRevisionHeaders_writable (revision : CommentRevision) :
    ∀ header ∈ commentRevisionHeaders revision, Writable header := by
  rw [commentRevisionHeaders, List.forall_mem_append]
  refine ⟨?_, actionHeaders_writable _ _⟩
  simp (disch := decide) only [List.forall_mem_cons, writable_encoding, writable_int,
    writable_text, writable_nat, implies_true, and_self, List.not_mem_nil, false_implies]

theorem crosspostHeaders_writable (crosspost : CrosspostRecord) :
    ∀ header ∈ crosspostHeaders crosspost, Writable header := by
  simp (disch := decide) only [crosspostHeaders, List.forall_mem_cons, writable_encoding,
    writable_int, writable_text, writable_nat, implies_true, and_self, List.not_mem_nil,
    false_implies]

/-! ### Reading back -/

private theorem foldl_ite {α : Type} (condition : Prop) [Decidable condition]
    (step : α → Bytes × Bytes → α) (start : α) (header : Bytes × Bytes) :
    (if condition then [header] else []).foldl step start =
      if condition then step start header else start := by
  split <;> rfl

private theorem foldl_ite_not {α : Type} (condition : Prop) [Decidable condition]
    (step : α → Bytes × Bytes → α) (start : α) (header : Bytes × Bytes) :
    (if condition then [] else [header]).foldl step start =
      if condition then start else step start header := by
  split <;> rfl

private theorem flag_eq_trueText (flag : Bool) :
    decide ((if flag = true then trueText else []) = trueText) = flag := by
  have nonempty : ([] : Bytes) ≠ trueText := trueText_text.2
  cases flag with
  | false => exact decide_eq_false nonempty
  | true => exact decide_eq_true rfl

theorem parseUint64_formatNat (value : UInt64) :
    parseUint64 (formatNat value.toNat) = value := by
  rw [parseUint64, parseUint_formatNat 64 _ value.toNat_lt]
  exact UInt64.ofNat_toNat

theorem parseUint32_formatNat (value : UInt32) :
    parseUint32 (formatNat value.toNat) = value := by
  rw [parseUint32, parseUint_formatNat 32 _ value.toNat_lt]
  exact UInt32.ofNat_toNat

theorem parseUint8_formatNat (value : UInt8) : parseUint8 (formatNat value.toNat) = value := by
  rw [parseUint8, parseUint_formatNat 8 _ value.toNat_lt]
  exact UInt8.ofNat_toNat

private theorem parse_storedTime (time : Int64) :
    parseInt64 (if 0 < time then formatInt64 time else []) = storedTime time := by
  unfold storedTime
  split <;> simp

private theorem headerValue_ite (text : Bytes) :
    (if text = [] then [] else headerValue text) = headerValue text := by
  split
  · rename_i nil
    rw [nil]
    rfl
  · rfl

theorem decodeRFC822Post_encodeRFC822Post (post : Post) :
    decodeRFC822Post (encodeRFC822Post post) = (postHeaders post, post.content) := by
  unfold decodeRFC822Post encodeRFC822Post
  rw [readRecord_writeRecord _ _ (by simp [postHeaders]) (postHeaders_writable post)]
  rfl

private theorem parse_optionalID (value : UInt64) :
    parseUint64 (if value = 0 then [] else formatNat value.toNat) = value := by
  split
  · rename_i zero
    rw [zero]
    rfl
  · exact parseUint64_formatNat value

theorem deletionFromRFC822_postHeaders (post : Post) :
    deletionFromRFC822 (postHeaders post) = storedDeletion post.deletion := by
  unfold deletionFromRFC822 storedDeletion field postHeaders deletionHeaders encodingHeader
  simp only [List.foldl_append, List.foldl_cons, List.foldl_nil, foldl_ite,
    foldl_ite_not, utf8_inj,
    String.reduceEq, if_true, if_false, ite_self, ne_eq, ite_not, headerValue_ite,
    parse_storedTime, flag_eq_trueText, parse_optionalID]

theorem decodeRFC822Comment_encodeRFC822Comment (postID : UInt64) (sequence : UInt32)
    (comment : Comment) :
    decodeRFC822Comment postID sequence (encodeRFC822Comment comment) =
      some (storedComment postID sequence comment) := by
  unfold decodeRFC822Comment encodeRFC822Comment
  rw [readRecord_writeRecord _ _ (by simp [commentHeaders]) (commentHeaders_writable comment)]
  unfold deletionFromRFC822 storedComment storedDeletion field commentHeaders deletionHeaders
    encodingHeader
  simp only [Option.map_some, List.foldl_append, List.foldl_cons, List.foldl_nil, foldl_ite,
    foldl_ite_not, utf8_inj, String.reduceEq, if_true, if_false, ite_self, ne_eq, ite_not, headerValue_ite,
    parse_storedTime, flag_eq_trueText, parse_optionalID, parseUint64_formatNat,
    parseUint8_formatNat, parseInt64_formatInt64]

theorem decodeRFC822PostRevision_encodeRFC822PostRevision (revision : PostRevision) :
    decodeRFC822PostRevision (encodeRFC822PostRevision revision) =
      some (storedPostRevision revision) := by
  unfold decodeRFC822PostRevision encodeRFC822PostRevision
  rw [readRecord_writeRecord _ _ (by simp [postRevisionHeaders])
    (postRevisionHeaders_writable revision)]
  unfold storedPostRevision field postRevisionHeaders actionHeaders encodingHeader
  simp only [Option.map_some, List.foldl_append, List.foldl_cons, List.foldl_nil,
    foldl_ite_not, utf8_inj, String.reduceEq, if_true, if_false, ite_self, ne_eq, ite_not, headerValue_ite,
    parseUint64_formatNat, parseUint32_formatNat, parseInt64_formatInt64]

theorem decodeRFC822CommentRevision_encodeRFC822CommentRevision (revision : CommentRevision) :
    decodeRFC822CommentRevision (encodeRFC822CommentRevision revision) =
      some (storedCommentRevision revision) := by
  unfold decodeRFC822CommentRevision encodeRFC822CommentRevision
  rw [readRecord_writeRecord _ _ (by simp [commentRevisionHeaders])
    (commentRevisionHeaders_writable revision)]
  unfold storedCommentRevision field commentRevisionHeaders actionHeaders encodingHeader
  simp only [Option.map_some, List.foldl_append, List.foldl_cons, List.foldl_nil,
    foldl_ite_not, utf8_inj, String.reduceEq, if_true, if_false, ite_self, ne_eq, ite_not, headerValue_ite,
    parseUint64_formatNat, parseUint32_formatNat, parseUint8_formatNat, parseInt64_formatInt64]

theorem decodeRFC822Crosspost_encodeRFC822Crosspost (crosspost : CrosspostRecord) :
    decodeRFC822Crosspost (encodeRFC822Crosspost crosspost) = storedCrosspost crosspost := by
  unfold decodeRFC822Crosspost encodeRFC822Crosspost
  rw [readRecord_writeRecord _ _ (by simp [crosspostHeaders])
    (crosspostHeaders_writable crosspost)]
  unfold storedCrosspost field crosspostHeaders encodingHeader
  simp only [Option.map_some, Option.getD_some, List.foldl_cons, List.foldl_nil, utf8_inj,
    String.reduceEq, if_true, if_false, parseUint64_formatNat, parseInt64_formatInt64]

/-! ### Whole records -/

def postOfRecord (record : Headers × Bytes) : Post :=
  let headers := record.1
  { parentID := parseUint64 (field headers "ParentID")
    community := field headers "Community"
    postFile := field headers "PostFile"
    title := field headers "Title"
    creatorName := field headers "CreatorName"
    creatorID := parseUint64 (field headers "CreatorID")
    createdAt := parseInt64 (field headers "CreatedAt")
    modified := parseInt64 (field headers "Modified")
    filemode := parseInt64 (field headers "Filemode")
    money := parseInt64 (field headers "Money")
    deletion := deletionFromRFC822 headers
    content := record.2 }

def storedPost (post : Post) : Post :=
  { parentID := post.parentID
    community := headerValue post.community
    postFile := headerValue post.postFile
    title := headerValue post.title
    creatorName := headerValue post.creatorName
    creatorID := post.creatorID
    createdAt := post.createdAt
    modified := if post.modified = 0 then post.createdAt else post.modified
    filemode := post.filemode
    money := post.money
    deletion := storedDeletion post.deletion
    content := post.content }

private theorem parse_optionalMoney (value : Int64) :
    parseInt64 (if value = 0 then [] else formatInt64 value) = value := by
  split
  · rename_i zero
    rw [zero]
    rfl
  · exact parseInt64_formatInt64 value

theorem postOfRecord_encodeRFC822Post (post : Post) :
    postOfRecord (decodeRFC822Post (encodeRFC822Post post)) = storedPost post := by
  rw [decodeRFC822Post_encodeRFC822Post]
  unfold postOfRecord storedPost
  simp only [deletionFromRFC822_postHeaders]
  unfold field postHeaders deletionHeaders encodingHeader
  simp only [List.foldl_append, List.foldl_cons, List.foldl_nil, foldl_ite, foldl_ite_not,
    utf8_inj, String.reduceEq, if_true, if_false, ite_self, ne_eq, ite_not,
    parseUint64_formatNat, parseInt64_formatInt64, parse_optionalMoney]

theorem storedTime_of_nonneg {time : Int64} (nonneg : 0 ≤ time) : storedTime time = time := by
  unfold storedTime
  split
  · rfl
  · rename_i notPositive
    exact (Int64.le_antisymm (Int64.not_lt.mp notPositive) nonneg).symm

def Deletion.header (deletion : Deletion) : Deletion :=
  { deletion with
    modPersonName := headerValue deletion.modPersonName
    reason := headerValue deletion.reason }

theorem storedDeletion_of_nonneg {deletion : Deletion} (nonneg : 0 ≤ deletion.deletedAt) :
    storedDeletion deletion = deletion.header := by
  unfold storedDeletion Deletion.header
  rw [storedTime_of_nonneg nonneg]

/-- What the record of a post holds is what the post says, with `HeaderValue` on the
header fields; the id and the counters are not part of it, and a modification time
of zero stands for the time of creation. -/
def Post.header (post : Post) : Post :=
  { post with
    id := 0
    upvotes := 0
    downvotes := 0
    numComments := 0
    numCrossposts := 0
    encoding := []
    demotedToComment := false
    community := headerValue post.community
    postFile := headerValue post.postFile
    title := headerValue post.title
    creatorName := headerValue post.creatorName
    modified := if post.modified = 0 then post.createdAt else post.modified
    deletion := post.deletion.header }

def Comment.header (comment : Comment) : Comment :=
  { comment with
    isMerged := false
    creatorName := headerValue comment.creatorName
    ip := headerValue comment.ip
    deletion := comment.deletion.header }

def Deletion.lineFree (deletion : Deletion) : Prop :=
  LineFree deletion.modPersonName ∧ LineFree deletion.reason

def Post.lineFree (post : Post) : Prop :=
  LineFree post.community ∧ LineFree post.postFile ∧ LineFree post.title ∧
    LineFree post.creatorName ∧ post.deletion.lineFree

def Comment.lineFree (comment : Comment) : Prop :=
  LineFree comment.creatorName ∧ LineFree comment.ip ∧ comment.deletion.lineFree

def PostRevision.lineFree (revision : PostRevision) : Prop :=
  LineFree revision.community ∧ LineFree revision.postFile ∧ LineFree revision.title ∧
    LineFree revision.creatorName ∧ LineFree revision.editorName ∧ LineFree revision.action ∧
    LineFree revision.reason

def CommentRevision.lineFree (revision : CommentRevision) : Prop :=
  LineFree revision.creatorName ∧ LineFree revision.editorName ∧ LineFree revision.ip ∧
    LineFree revision.action ∧ LineFree revision.reason

def CrosspostRecord.lineFree (crosspost : CrosspostRecord) : Prop :=
  LineFree crosspost.targetCommunity ∧ LineFree crosspost.targetPostFile ∧
    LineFree crosspost.creatorName

theorem Deletion.header_of_lineFree {deletion : Deletion} (free : deletion.lineFree) :
    deletion.header = deletion := by
  unfold Deletion.header
  rw [headerValue_of_lineFree free.1, headerValue_of_lineFree free.2]

end Pttbbs.PostSvc
