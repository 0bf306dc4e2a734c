/-
Comments as post.svc writes them and as mbbsd reads them.
-/

import Pttbbs.Mbbsd.CommentHeader
import Pttbbs.PostSvc.Encoded

namespace Pttbbs.Mbbsd.Comments

open Pttbbs.Lib
open Pttbbs.PostSvc
open Pttbbs.Common.Dbcs (Memory)
open CommentCtx (Lies lies_append)

/-! ### What is written -/

/-- The text next to the author: the first line that is shown, or the notice of a deletion. -/
def headLineText (cfg : Config) (comment : Comment) : Bytes :=
  if comment.deletion.deletedOrRemoved then cfg.deletionNotice comment.deletion
  else (visibleLines comment.content).headD []

def shownReason (cfg : Config) (deletion : Deletion) : Bytes :=
  trimRight [Lib.carriageReturn, Lib.newline] (trimSpace
    (if validUtf8 deletion.reason then deletion.reason else cfg.decodeBig5 deletion.reason))

def showsAddress (comment : Comment) : Bool := comment.ip ≠ [] && comment.ip ≠ utf8 "-"

def writtenFields (cfg : Config) (comment : Comment) : HeaderFields where
  author := cfg.encodeText comment.creatorName
  isTombstone := comment.deletion.deletedOrRemoved
  content := cfg.encodeText (headLineText cfg comment)
  payload := cfg.encodeText (cfg.creation comment)
  isModified := 0 < comment.modifiedAt
  number := formatNat comment.sequence.toNat

def writtenRows (cfg : Config) (comment : Comment) : List Bytes :=
  if comment.deletion.deletedOrRemoved then []
  else ((visibleLines comment.content).drop 1).map fun line => bar :: blank :: cfg.encodeText line

/-- `Format("01/02/2006 15:04")` is a date and a clock. -/
def ClockFormat (formatTime : Int64 → Bytes) : Prop :=
  ∀ time, ∃ date clock, formatTime time = date ++ blank :: clock ∧ slash ∈ date ∧ clock ≠ [] ∧
    ∀ byte ∈ date ++ clock, isDigitByte byte = true ∨ byte ∈ utf8 "/:-"

/-! ### What is read -/

/-- A comment is read as it is, and nothing else of it is read as a header. -/
structure ReadsBack (cfg : Config) (comment : Comment) (ctx : CommentCtx) (line : Nat) : Prop where
  header : ∃ header date clock, ctx.commentRenderModernHeader line = some header ∧
    header.toHeaderFields = writtenFields cfg comment ∧
    header.tokens =
      { ip := if showsAddress comment then some (cfg.encodeText comment.ip) else none
        date := some date
        time := some clock } ∧
    cfg.formatTime comment.createdAt = date ++ blank :: clock
  others : ∀ place, line < place →
    place < line + (cfg.encodeText (formatCommentBlock cfg comment)).length →
    ctx.memory (place - 1) = newline → ctx.commentRenderModernHeader place = none

structure Readable (cfg : Config) (comment : Comment) : Prop where
  author : comment.creatorName ≠ []
  head : (cfg.encodeText comment.creatorName).head? ≠ some blank
  bars : bar ∉ cfg.encodeText comment.creatorName
  last : comment.deletion.deletedOrRemoved = false →
    (cfg.encodeText comment.creatorName).getLast? ≠ some tombstoneMark
  authorPlain : ∀ byte ∈ cfg.encodeText comment.creatorName, byte ≠ newline ∧ byte ≠ 0
  reason : comment.deletion.removed = true → comment.deletion.deleted = false →
    newline ∉ shownReason cfg comment.deletion ∧
      (cfg.isBig5 = false → 0 ∉ shownReason cfg comment.deletion)
  text : comment.deletion.deletedOrRemoved = false → cfg.isBig5 = false →
    0 ∉ (visibleLines comment.content).headD []
  address : showsAddress comment = true →
    ∀ byte ∈ cfg.encodeText comment.ip, byte ≠ bar ∧ byte ≠ newline ∧ byte ≠ 0

/-! ### Lines -/

theorem mem_of_mem_stripFrom {byte : UInt8} {skip : Nat} {text : Bytes}
    (member : byte ∈ stripFrom skip text) : byte ∈ text := by
  induction text generalizing skip with
  | nil => cases skip <;> cases member
  | cons first rest ih =>
      cases skip with
      | succ skip => exact List.mem_cons_of_mem _ (@ih skip member)
      | zero =>
          rw [stripFrom] at member
          split at member
          · exact List.mem_cons_of_mem _ (ih member)
          · rcases List.mem_cons.1 member with same | later
            · exact same ▸ List.mem_cons_self
            · exact List.mem_cons_of_mem _ (ih later)

theorem newline_not_mem_visibleLines {content line : Bytes} (shown : line ∈ visibleLines content) :
    newline ∉ line := by
  obtain ⟨source, inside, rfl⟩ := List.mem_map.1 (List.mem_filter.1 shown).1
  obtain ⟨piece, cut, rfl⟩ := List.mem_map.1 (List.mem_filter.1 inside).1
  intro member
  rw [visibleLine, mem_replaceAll (by decide) (by decide) (by decide)] at member
  exact not_mem_of_mem_splitOn cut (mem_of_mem_trimRight (mem_of_mem_stripFrom member))

theorem newline_not_mem_headD (content : Bytes) :
    newline ∉ (visibleLines content).headD [] := by
  cases shown : visibleLines content with
  | nil => exact List.not_mem_nil
  | cons first rest => exact newline_not_mem_visibleLines (shown ▸ List.mem_cons_self)

theorem mem_deletionNotice (cfg : Config) (deletion : Deletion) {byte : UInt8}
    (control : byte = newline ∨ byte = 0) :
    byte ∈ cfg.deletionNotice deletion ↔
      deletion.deleted = false ∧ byte ∈ shownReason cfg deletion := by
  have fixed : byte ∉ utf8 "留言已刪除" ∧ byte ∉ utf8 "留言已隱藏 (" ∧ byte ∉ utf8 ")" ∧
      byte ∉ utf8 "留言已隱藏" ∧ byte ∉ utf8 "--" ∧ byte ∉ utf8 "-" ∧ byte ∉ [PostSvc.bar] ∧
      byte ∉ trimRight [Lib.carriageReturn, Lib.newline] (utf8 "自刪") := by
    rcases control with rfl | rfl <;> decide
  obtain ⟨deletedText, left, right, removedText, dashes, dash, bars, self⟩ := fixed
  rw [Config.deletionNotice, shownReason]
  dsimp only
  generalize trimSpace (if validUtf8 deletion.reason then deletion.reason
    else cfg.decodeBig5 deletion.reason) = reason
  cases deletion.deleted with
  | true => simp [deletedText]
  | false =>
      by_cases isSelf : reason = utf8 "自刪"
      · rw [isSelf]
        simp [deletedText, self]
      · by_cases empty : reason = []
        · rw [if_neg (by simp [isSelf]), if_neg (not_not.2 empty), empty]
          simp [removedText, trimRight]
        · rw [if_neg (by simp [isSelf]), if_pos empty, List.mem_append, List.mem_append,
            mem_replaceAll (by decide) bars dash, mem_replaceAll (by decide) dashes dash]
          simp [left, right]

/-! ### The condition -/

variable {cfg : Config} {comment : Comment}

theorem contentPlain_iff (plain : PlainTable cfg.u2bTable) :
    (∀ byte ∈ (writtenFields cfg comment).content, byte ≠ newline ∧ byte ≠ 0) ↔
      (comment.deletion.removed = true → comment.deletion.deleted = false →
        newline ∉ shownReason cfg comment.deletion ∧
          (cfg.isBig5 = false → 0 ∉ shownReason cfg comment.deletion)) ∧
      (comment.deletion.deletedOrRemoved = false → cfg.isBig5 = false →
        0 ∉ (visibleLines comment.content).headD []) := by
  have bytes : (∀ byte ∈ (writtenFields cfg comment).content, byte ≠ newline ∧ byte ≠ 0) ↔
      newline ∉ headLineText cfg comment ∧
        (cfg.isBig5 = false → 0 ∉ headLineText cfg comment) := by
    have newlines : newline ∈ (writtenFields cfg comment).content ↔
        newline ∈ headLineText cfg comment := newline_mem_encodeText plain
    have zeros : 0 ∈ (writtenFields cfg comment).content ↔
        cfg.isBig5 = false ∧ 0 ∈ headLineText cfg comment := zero_mem_encodeText plain
    rw [← newlines, ← not_and, ← zeros]
    constructor
    · exact fun all => ⟨fun member => (all _ member).1 rfl, fun member => (all _ member).2 rfl⟩
    · rintro ⟨noBreak, noNul⟩ byte member
      exact ⟨fun same => noBreak (same ▸ member), fun same => noNul (same ▸ member)⟩
  rw [bytes, headLineText]
  cases dead : comment.deletion.deletedOrRemoved with
  | true =>
      rw [if_pos rfl, mem_deletionNotice cfg _ (.inl rfl), mem_deletionNotice cfg _ (.inr rfl)]
      rw [Deletion.deletedOrRemoved, Bool.or_eq_true] at dead
      cases deleted : comment.deletion.deleted with
      | true => simp
      | false =>
          have removed : comment.deletion.removed = true := by simpa [deleted] using dead
          simp [removed]
  | false =>
      rw [Deletion.deletedOrRemoved, Bool.or_eq_false_iff] at dead
      have noBreak := newline_not_mem_headD comment.content
      rw [if_neg (by simp), dead.2]
      exact ⟨fun both => ⟨fun removed => absurd removed (by simp), fun _ => both.2⟩,
        fun both => ⟨noBreak, both.2 rfl⟩⟩

theorem creation_eq : cfg.creation comment =
    (if showsAddress comment then comment.ip ++ [blank] else []) ++
      cfg.formatTime comment.createdAt := by
  rw [Config.creation, showsAddress]
  split
  · rfl
  · rfl

theorem digit_char {byte : UInt8} (digit : isDigitByte byte = true) :
    byte.toNat < 0x80 ∧ byte ≠ 0 ∧ byte ≠ blank ∧ byte ≠ bar ∧ byte ≠ newline := by
  rw [isDigitByte, Bool.and_eq_true, decide_eq_true_eq, decide_eq_true_eq,
    UInt8.le_iff_toNat_le, UInt8.le_iff_toNat_le] at digit
  change 48 ≤ byte.toNat ∧ byte.toNat ≤ 57 at digit
  refine ⟨by omega, ?_, ?_, ?_, ?_⟩ <;> rintro rfl <;> revert digit <;> decide

section Clock

variable {date clock : Bytes}
  (chars : ∀ byte ∈ date ++ clock, isDigitByte byte = true ∨ byte ∈ utf8 "/:-")

include chars

theorem clock_char {byte : UInt8} (member : byte ∈ date ++ clock) :
    byte.toNat < 0x80 ∧ byte ≠ 0 ∧ byte ≠ blank ∧ byte ≠ bar ∧ byte ≠ newline := by
  rcases chars byte member with digit | mark
  · exact digit_char digit
  · have marks : ∀ mark ∈ utf8 "/:-", mark.toNat < 0x80 ∧ mark ≠ 0 ∧ mark ≠ blank ∧ mark ≠ bar ∧
        mark ≠ newline := by
      decide +kernel
    exact marks byte mark

section

variable (plain : PlainTable cfg.u2bTable)
  (format : cfg.formatTime comment.createdAt = date ++ blank :: clock)

include plain format

theorem payload_eq :
    (writtenFields cfg comment).payload =
      (if showsAddress comment then cfg.encodeText comment.ip ++ [blank] else []) ++
        (date ++ blank :: clock) := by
  have written : cfg.encodeText (date ++ blank :: clock) = date ++ blank :: clock := by
    have ascii : ∀ byte ∈ date ++ blank :: clock, byte.toNat < 0x80 ∧ byte ≠ 0 := by
      intro byte member
      rcases List.mem_append.1 member with inside | behind
      · have char := clock_char chars (List.mem_append_left _ inside)
        exact ⟨char.1, char.2.1⟩
      · rcases List.mem_cons.1 behind with rfl | inside
        · decide
        · have char := clock_char chars (List.mem_append_right _ inside)
          exact ⟨char.1, char.2.1⟩
    have whole := encodeText_of_ascii plain ascii []
    rwa [List.append_nil, encodeText_nil, List.append_nil] at whole
  rw [writtenFields, creation_eq, format]
  dsimp only
  split
  · rw [List.append_assoc, List.singleton_append,
      encodeText_append_ascii plain (by decide) (by decide), written]
    simp
  · exact written

theorem payloadPlain_iff :
    (∀ byte ∈ (writtenFields cfg comment).payload, byte ≠ bar ∧ byte ≠ newline ∧ byte ≠ 0) ↔
      (showsAddress comment = true →
        ∀ byte ∈ cfg.encodeText comment.ip, byte ≠ bar ∧ byte ≠ newline ∧ byte ≠ 0) := by
  have blanks : blank ≠ bar ∧ blank ≠ newline ∧ blank ≠ 0 := by decide
  have time : ∀ byte ∈ date ++ blank :: clock, byte ≠ bar ∧ byte ≠ newline ∧ byte ≠ 0 := by
    intro byte member
    rcases List.mem_append.1 member with inside | behind
    · have char := clock_char chars (List.mem_append_left _ inside)
      exact ⟨char.2.2.2.1, char.2.2.2.2, char.2.1⟩
    · rcases List.mem_cons.1 behind with rfl | inside
      · exact blanks
      · have char := clock_char chars (List.mem_append_right _ inside)
        exact ⟨char.2.2.2.1, char.2.2.2.2, char.2.1⟩
  rw [payload_eq chars plain format]
  constructor
  · intro all shows byte member
    refine all byte (List.mem_append_left _ ?_)
    rw [if_pos shows]
    exact List.mem_append_left _ member
  · intro address byte member
    rcases List.mem_append.1 member with front | inside
    · split at front
      · rename_i shows
        rcases List.mem_append.1 front with inside | isBlank
        · exact address shows byte inside
        · rw [List.mem_singleton.1 isBlank]
          exact blanks
      · cases front
    · exact time byte inside

theorem tokens_eq (slashes : slash ∈ date) :
    payloadTokens (writtenFields cfg comment).payload =
      { ip := if showsAddress comment then some (cfg.encodeText comment.ip) else none
        date := some date
        time := some clock } := by
  have noBlank : blank ∉ date ++ clock := fun member => (clock_char chars member).2.2.1 rfl
  rw [List.mem_append, not_or] at noBlank
  rw [payload_eq chars plain format, payloadTokens, ← List.append_assoc, cutLast_append noBlank.2]
  dsimp only
  cases showsAddress comment with
  | true =>
      rw [if_pos rfl, if_pos rfl, List.append_assoc, List.singleton_append,
        cutLast_append noBlank.1]
  | false =>
      rw [if_neg Bool.false_ne_true, if_neg Bool.false_ne_true, List.nil_append,
        cutLast_eq_none.2 noBlank.1]
      exact if_pos slashes

theorem payload_trimmed (some : clock ≠ []) :
    (writtenFields cfg comment).payload.getLast? ≠ Option.some blank := by
  rcases List.eq_nil_or_concat clock with empty | ⟨front, final, whole⟩
  · exact absurd empty some
  · rw [List.concat_eq_append] at whole
    have char := clock_char chars (List.mem_append_right date (by rw [whole]; simp : final ∈ clock))
    rw [payload_eq chars plain format, whole, ← List.cons_append, ← List.append_assoc,
      ← List.append_assoc, List.getLast?_concat]
    exact fun same => char.2.2.1 (Option.some.inj same)

end

end Clock

theorem wellFormed_iff (plain : PlainTable cfg.u2bTable) (clockFormat : ClockFormat cfg.formatTime) :
    (writtenFields cfg comment).WellFormed ↔ Readable cfg comment := by
  obtain ⟨date, clock, format, _, _, chars⟩ := clockFormat comment.createdAt
  have content := @contentPlain_iff cfg comment plain
  have payload := payloadPlain_iff chars plain format
  have name : (writtenFields cfg comment).author ≠ [] ↔ comment.creatorName ≠ [] :=
    not_congr encodeText_eq_nil
  constructor
  · intro wellFormed
    exact
      { author := name.1 wellFormed.author
        head := wellFormed.head
        bars := wellFormed.bars
        last := wellFormed.last
        authorPlain := wellFormed.authorPlain
        reason := (content.1 wellFormed.contentPlain).1
        text := (content.1 wellFormed.contentPlain).2
        address := payload.1 wellFormed.payloadPlain }
  · intro readable
    exact
      { author := name.2 readable.author
        head := readable.head
        bars := readable.bars
        last := readable.last
        authorPlain := readable.authorPlain
        contentPlain := content.2 ⟨readable.reason, readable.text⟩
        payloadPlain := payload.2 readable.address }

/-! ### The block -/

theorem encodeText_flatMap_continuationLine (plain : PlainTable cfg.u2bTable) (lines : List Bytes) :
    cfg.encodeText (lines.flatMap continuationLine) =
      (lines.map fun line => bar :: blank :: cfg.encodeText line).flatMap
        fun row => row ++ [newline] := by
  induction lines with
  | nil => exact encodeText_nil
  | cons line lines ih =>
      have parts : (line :: lines).flatMap continuationLine =
          [bar, blank] ++ (line ++ newline :: lines.flatMap continuationLine) := by
        rw [List.flatMap_cons, continuationLine]
        simp only [List.append_assoc]
        rfl
      rw [parts, encodeText_of_ascii plain (by simp [bar, blank]),
        encodeText_append_ascii plain (by decide) (by decide), ih]
      simp

theorem encodeText_headLine (plain : PlainTable cfg.u2bTable) (isTombstone isModified : Bool)
    (author content creation rest : Bytes) (sequence : UInt32) :
    cfg.encodeText (headLine (author ++ tombstoneText isTombstone) content creation
        (modifiedText isModified) sequence ++ rest) =
      HeaderFields.text
        { author := cfg.encodeText author
          isTombstone := isTombstone
          content := cfg.encodeText content
          payload := cfg.encodeText creation
          isModified := isModified
          number := formatNat sequence.toNat } ++ newline :: cfg.encodeText rest := by
  have tail : cfg.encodeText (modifiedText isModified ++ formatNat sequence.toNat ++
      newline :: rest) =
      modifiedText isModified ++ formatNat sequence.toNat ++ newline :: cfg.encodeText rest := by
    rw [encodeText_of_ascii plain, encodeText_cons_ascii plain (by decide) (by decide)]
    intro byte member
    rcases List.mem_append.1 member with mark | digit
    · cases isModified with
      | true =>
          rw [List.mem_singleton.1 mark]
          decide
      | false => cases mark
    · have char := digit_char (formatNat_digits _ byte digit)
      exact ⟨char.1, char.2.1⟩
  have mark : cfg.encodeText (author ++ tombstoneText isTombstone) =
      cfg.encodeText author ++ tombstoneText isTombstone := by
    cases isTombstone with
    | true =>
        change cfg.encodeText (author ++ tombstoneMark :: []) = _
        rw [encodeText_append_ascii plain (by decide) (by decide), encodeText_nil]
        rfl
    | false =>
        change cfg.encodeText (author ++ []) = cfg.encodeText author ++ []
        rw [List.append_nil, List.append_nil]
  have shape : headLine (author ++ tombstoneText isTombstone) content creation
      (modifiedText isModified) sequence ++ rest =
      bar :: ((author ++ tombstoneText isTombstone) ++ bar :: (content ++ bar :: (creation ++ bar ::
        (modifiedText isModified ++ formatNat sequence.toNat ++ newline :: rest)))) := by
    rw [headLine]
    simp only [List.append_assoc, List.cons_append, List.nil_append]
    rfl
  rw [shape, encodeText_cons_ascii plain (by decide) (by decide),
    encodeText_append_ascii plain (by decide) (by decide), mark,
    encodeText_append_ascii plain (by decide) (by decide),
    encodeText_append_ascii plain (by decide) (by decide), tail, HeaderFields.text]
  simp only [List.append_assoc, List.cons_append]

theorem encodeText_formatCommentBlock (plain : PlainTable cfg.u2bTable) :
    cfg.encodeText (formatCommentBlock cfg comment) =
      ((writtenFields cfg comment).text :: writtenRows cfg comment).flatMap
        fun row => row ++ [newline] := by
  have modified : modMark comment = modifiedText (0 < comment.modifiedAt) := by
    rw [modMark, modifiedText]
    by_cases edited : 0 < comment.modifiedAt
    · rw [if_pos edited, if_pos (decide_eq_true edited)]
      decide
    · rw [if_neg edited, if_neg (by simpa using edited)]
  rw [formatCommentBlock, writtenRows, writtenFields, headLineText, modified, List.flatMap_cons]
  cases dead : comment.deletion.deletedOrRemoved with
  | true =>
      have mark : utf8 "!" = tombstoneText true := by decide
      have header := encodeText_headLine plain true (0 < comment.modifiedAt) comment.creatorName
        (cfg.deletionNotice comment.deletion) (cfg.creation comment) [] comment.sequence
      rw [List.append_nil, encodeText_nil] at header
      rw [if_pos rfl, if_pos rfl, if_pos rfl, mark, header, List.flatMap_nil, List.append_nil]
  | false =>
      have header := encodeText_headLine plain false (0 < comment.modifiedAt) comment.creatorName
        ((visibleLines comment.content).headD []) (cfg.creation comment)
        (((visibleLines comment.content).drop 1).flatMap continuationLine) comment.sequence
      rw [show tombstoneText false = [] from rfl, List.append_nil] at header
      rw [if_neg Bool.false_ne_true, if_neg Bool.false_ne_true, if_neg Bool.false_ne_true]
      dsimp only
      rw [header, encodeText_flatMap_continuationLine plain, List.append_assoc,
        List.singleton_append]

theorem mem_of_lies {memory : Memory} {place other : Nat} {text : Bytes}
    (lies : Lies memory place text) (after : place ≤ other) (before : other < place + text.length) :
    memory other ∈ text := by
  induction text generalizing place with
  | nil =>
      rw [List.length_nil] at before
      omega
  | cons byte text ih =>
      rw [Lies] at lies
      rw [List.length_cons] at before
      rcases Nat.eq_or_lt_of_le after with same | later
      · rw [← same, lies.1]
        exact List.mem_cons_self
      · exact List.mem_cons_of_mem _ (ih lies.2 later (by omega))

theorem row_of_newline {memory : Memory} {rows : List Bytes} (free : ∀ row ∈ rows, newline ∉ row)
    {line place : Nat} (lies : Lies memory line (rows.flatMap fun row => row ++ [newline]))
    (after : line < place)
    (before : place < line + (rows.flatMap fun row => row ++ [newline]).length)
    (breaks : memory (place - 1) = newline) :
    ∃ row ∈ rows.tail, Lies memory place (row ++ [newline]) := by
  induction rows generalizing line with
  | nil =>
      rw [List.flatMap_nil, List.length_nil] at before
      omega
  | cons row rows ih =>
      rw [List.flatMap_cons] at lies before
      rw [List.length_append, List.length_append, List.length_singleton] at before
      obtain ⟨here, behind⟩ := lies_append.1 lies
      rw [List.length_append, List.length_singleton] at behind
      rw [List.forall_mem_cons] at free
      have past : line + row.length < place := by
        by_contra early
        refine free.1 (breaks ▸ mem_of_lies (lies_append.1 here).1 ?_ ?_) <;> omega
      rcases Nat.eq_or_lt_of_le past with next | later
      · cases rows with
        | nil =>
            rw [List.flatMap_nil, List.length_nil] at before
            omega
        | cons second rows =>
            rw [List.flatMap_cons, ← Nat.add_assoc] at behind
            exact ⟨second, List.mem_cons_self, next ▸ (lies_append.1 behind).1⟩
      · obtain ⟨other, member, found⟩ := ih free.2 behind (by omega) (by omega)
        exact ⟨other, List.mem_of_mem_tail member, found⟩

theorem newline_not_mem_rows (plain : PlainTable cfg.u2bTable) :
    ∀ row ∈ writtenRows cfg comment, newline ∉ row := by
  intro row member
  rw [writtenRows] at member
  split at member
  · cases member
  · obtain ⟨line, shown, rfl⟩ := List.mem_map.1 member
    intro inside
    rcases List.mem_cons.1 inside with same | inside
    · exact absurd same (by decide)
    rcases List.mem_cons.1 inside with same | inside
    · exact absurd same (by decide)
    · exact newline_not_mem_visibleLines (List.mem_of_mem_drop shown)
        ((newline_mem_encodeText plain).1 inside)

theorem render_row {ctx : CommentCtx} {place : Nat} {row : Bytes}
    (member : row ∈ writtenRows cfg comment) (lies : Lies ctx.memory place (row ++ [newline])) :
    ctx.commentRenderModernHeader place = none := by
  rw [writtenRows] at member
  split at member
  · cases member
  · obtain ⟨line, _, rfl⟩ := List.mem_map.1 member
    rw [CommentCtx.commentRenderModernHeader]
    exact if_pos (.inr lies.2.1)

def sampleConfig : Config :=
  { isBig5 := true, formatTime := fun _ => utf8 "10/01/2026 12:00" }

def sampleComment : Comment :=
  { sequence := 3, creatorName := utf8 "bob", ip := utf8 "10.0.0.1",
    content := utf8 "a|b\n|alice|x|y|1" }

def articleOf (cfg : Config) (comment : Comment) : CommentCtx :=
  let text := cfg.encodeText (formatCommentBlock cfg comment)
  { memory := fun place => text.getD place 0
    bufEnd := text.length
    commentsStart := some 0
    opAuthor := none
    theme := .classic }

theorem lies_getD (front text : Bytes) :
    Lies (fun place => (front ++ text).getD place 0) front.length text := by
  induction text generalizing front with
  | nil => trivial
  | cons byte text ih =>
      refine ⟨by simp, ?_⟩
      have behind := ih (front ++ [byte])
      rwa [List.append_assoc, List.singleton_append, List.length_append,
        List.length_singleton] at behind

theorem sampleConfig_plain : PlainTable sampleConfig.u2bTable where
  ascii _ low := if_pos low
  codes _ wide _ := .inl (by
    rw [show sampleConfig.u2bTable = fun rune => if rune < 0x80 then UInt16.ofNat rune else 0
      from rfl]
    dsimp only
    rw [if_neg (Nat.not_lt.2 wide)]
    rfl)

theorem sampleConfig_clock : ClockFormat sampleConfig.formatTime := fun _ =>
  have parts : utf8 "10/01/2026 12:00" = utf8 "10/01/2026" ++ blank :: utf8 "12:00" := by
    decide
  ⟨utf8 "10/01/2026", utf8 "12:00", parts, by decide, by decide,
    by decide +kernel⟩

end Pttbbs.Mbbsd.Comments
