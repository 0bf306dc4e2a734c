/-
The header of a comment, as the reader of an article takes it apart.
-/

import Pttbbs.Lib.Text
import Pttbbs.Mbbsd.CommentStates

namespace Pttbbs.Mbbsd.Comments

open Pttbbs.Lib
open Pttbbs.Common.Dbcs (Memory CString strncasecmp)

/-- `~`, in front of the floor of an edited comment -/
def modifiedMark : UInt8 := 0x7E

def slash : UInt8 := 0x2F

/-- The tokens `[IP] [DATE] TIME` of the part in front of the floor. -/
structure PayloadTokens where
  ip : Option Bytes
  date : Option Bytes
  time : Option Bytes
deriving DecidableEq, Repr

def payloadTokens (payload : Bytes) : PayloadTokens :=
  match cutLast blank payload with
  | some (front, time) =>
      match cutLast blank front with
      | some (ip, date) => { ip := some ip, date := some date, time := some time }
      | none =>
          if slash ∈ front then { ip := none, date := some front, time := some time }
          else { ip := some front, date := none, time := some time }
  | none =>
      if payload ≠ [] then { ip := none, date := none, time := some payload }
      else { ip := none, date := none, time := none }

def parseFloor (no : Bytes) : Option (Bool × Bytes) :=
  match trimRight [carriageReturn, newline, blank] no with
  | [] => none
  | first :: rest =>
      if first = modifiedMark then
        if rest = [] then none else some (true, rest)
      else some (false, first :: rest)

structure HeaderFields where
  author : Bytes
  isTombstone : Bool
  content : Bytes
  payload : Bytes
  isModified : Bool
  number : Bytes
deriving DecidableEq, Repr

structure ModernHeader extends HeaderFields where
  tokens : PayloadTokens
  state : LineState
  nextLine : Nat
deriving DecidableEq, Repr

structure HeaderFields.WellFormed (fields : HeaderFields) : Prop where
  author : fields.author ≠ []
  head : fields.author.head? ≠ some blank
  bars : bar ∉ fields.author
  last : fields.isTombstone = false → fields.author.getLast? ≠ some tombstoneMark
  authorPlain : ∀ byte ∈ fields.author, byte ≠ newline ∧ byte ≠ 0
  contentPlain : ∀ byte ∈ fields.content, byte ≠ newline ∧ byte ≠ 0
  payloadPlain : ∀ byte ∈ fields.payload, byte ≠ bar ∧ byte ≠ newline ∧ byte ≠ 0

def tombstoneText (isTombstone : Bool) : Bytes := if isTombstone then [tombstoneMark] else []

def modifiedText (isModified : Bool) : Bytes := if isModified then [modifiedMark] else []

/-- `|author[!]|content|payload|[~]number` -/
def HeaderFields.text (fields : HeaderFields) : Bytes :=
  bar :: (fields.author ++ tombstoneText fields.isTombstone ++ bar ::
    (fields.content ++ bar :: (fields.payload ++ bar ::
      (modifiedText fields.isModified ++ fields.number))))

namespace CommentCtx

variable (ctx : CommentCtx)

def slice (start stop : Nat) : Bytes := (List.range' start (stop - start)).map ctx.memory

def isOp (line userLen : Nat) : Bool :=
  match ctx.opAuthor with
  | none => false
  | some author =>
      author.text ≠ [] ∧ author.text.length = userLen ∧
        strncasecmp userLen (fun index => ctx.memory (line + 1 + index)) author.memory = 0

def headerWidth (userLen : Nat) : Nat :=
  if ctx.theme = .aligned then (if userLen < idLen then idLen else userLen) + 2 else userLen + 2

/-- `comment_render_modern_header` without the drawing. -/
def commentRenderModernHeader (line : Nat) : Option ModernHeader :=
  let eol := ctx.lineEnd line
  if ctx.memory line ≠ bar ∨ ctx.memory (line + 1) = blank then none
  else
    match ctx.authorEnd line with
    | none => none
    | some p1 =>
        let isTombstone : Bool := 0 < p1 - (line + 1) ∧ ctx.memory (p1 - 1) = tombstoneMark
        let userLen := ctx.userLen line p1
        if userLen = 0 then none
        else
          -- the last bar of the line, in front of the floor
          match cutLast bar (ctx.slice (p1 + 1) eol) with
          | none => none
          | some (front, no) =>
              match parseFloor no with
              | none => none
              | some (isModified, number) =>
                  -- the bar before it, in front of the address and the time
                  match cutLast bar front with
                  | none => none
                  | some (content, rest) =>
                      let payload := trimRight [blank] rest
                      some
                        { author := ctx.slice (line + 1) (line + 1 + userLen)
                          isTombstone := isTombstone
                          content := content
                          payload := payload
                          tokens := payloadTokens payload
                          isModified := isModified
                          number := number
                          state :=
                            { curIsOp := ctx.isOp line userLen
                              curHeaderWidth := ctx.headerWidth userLen
                              curIsTombstone := isTombstone }
                          nextLine := eol }

variable {ctx}

/-! ### What is read is in the line -/

theorem mem_slice {start stop : Nat} {byte : UInt8} (member : byte ∈ ctx.slice start stop) :
    ∃ place, start ≤ place ∧ place < stop ∧ ctx.memory place = byte := by
  obtain ⟨place, inside, same⟩ := List.mem_map.1 member
  rw [List.mem_range'_1] at inside
  exact ⟨place, inside.1, by omega, same⟩

theorem before_lineEnd {line place : Nat} (from_line : line ≤ place)
    (before : place < ctx.lineEnd line) : ctx.memory place ≠ newline ∧ ctx.memory place ≠ 0 := by
  have inside : place ∈ List.range' line (ctx.bufEnd - line) ∨ ctx.bufEnd ≤ place := by
    rw [List.mem_range'_1]
    omega
  rw [lineEnd] at before
  cases found : (List.range' line (ctx.bufEnd - line)).find? fun place =>
      ctx.memory place = newline ∨ ctx.memory place = 0 with
  | none =>
      rw [found, Option.getD_none] at before
      have nothing := List.find?_eq_none.1 found place (inside.resolve_right (by omega))
      simpa using nothing
  | some stop =>
      rw [found, Option.getD_some] at before
      have first := (List.find?_range'_eq_some.1 found).2.2 place from_line before
      simpa using first

theorem authorEnd_spec {line p1 : Nat} (found : ctx.authorEnd line = some p1) :
    line + 1 ≤ p1 ∧ p1 < ctx.lineEnd line ∧ ctx.memory p1 = bar ∧
      ∀ place, line + 1 ≤ place → place < p1 → ctx.memory place ≠ bar := by
  have range := List.mem_of_find?_eq_some found
  rw [List.mem_range'_1] at range
  have hit := List.find?_some found
  have first := (List.find?_range'_eq_some.1 found).2.2
  refine ⟨range.1, by omega, by simpa using hit, ?_⟩
  intro place after before
  simpa using first place after before

theorem slice_cons {start stop : Nat} (more : start < stop) :
    ctx.slice start stop = ctx.memory start :: ctx.slice (start + 1) stop := by
  rw [slice, slice, show stop - start = stop - (start + 1) + 1 by omega, List.range'_succ,
    List.map_cons]

theorem slice_concat {start stop : Nat} (more : start ≤ stop) :
    ctx.slice start (stop + 1) = ctx.slice start stop ++ [ctx.memory stop] := by
  rw [slice, slice, show stop + 1 - start = stop - start + 1 by omega, List.range'_1_concat,
    List.map_append, show start + (stop - start) = stop by omega]
  rfl

theorem render_eq_some {line : Nat} {header : ModernHeader}
    (rendered : ctx.commentRenderModernHeader line = some header) :
    ctx.memory line = bar ∧ ctx.memory (line + 1) ≠ blank ∧
      ∃ p1 front no content rest,
        ctx.authorEnd line = some p1 ∧ ctx.userLen line p1 ≠ 0 ∧
        cutLast bar (ctx.slice (p1 + 1) (ctx.lineEnd line)) = some (front, no) ∧
        parseFloor no = some (header.isModified, header.number) ∧
        cutLast bar front = some (content, rest) ∧
        header.author = ctx.slice (line + 1) (line + 1 + ctx.userLen line p1) ∧
        header.isTombstone =
          decide (0 < p1 - (line + 1) ∧ ctx.memory (p1 - 1) = tombstoneMark) ∧
        header.content = content ∧ header.payload = trimRight [blank] rest ∧
        header.state =
          { curIsOp := ctx.isOp line (ctx.userLen line p1)
            curHeaderWidth := ctx.headerWidth (ctx.userLen line p1)
            curIsTombstone := header.isTombstone } := by
  rw [commentRenderModernHeader] at rendered
  dsimp only at rendered
  split at rendered
  · cases rendered
  rename_i starts
  obtain ⟨first, second⟩ := not_or.1 starts
  refine ⟨not_not.1 first, second, ?_⟩
  cases found : ctx.authorEnd line with
  | none =>
      rw [found] at rendered
      cases rendered
  | some p1 =>
      rw [found] at rendered
      dsimp only at rendered
      split at rendered
      · cases rendered
      rename_i nonempty
      cases floor : cutLast bar (ctx.slice (p1 + 1) (ctx.lineEnd line)) with
      | none =>
          rw [floor] at rendered
          cases rendered
      | some parts =>
          obtain ⟨front, no⟩ := parts
          rw [floor] at rendered
          dsimp only at rendered
          cases number : parseFloor no with
          | none =>
              rw [number] at rendered
              cases rendered
          | some parsed =>
              rw [number] at rendered
              dsimp only at rendered
              cases address : cutLast bar front with
              | none =>
                  rw [address] at rendered
                  cases rendered
              | some parts =>
                  rw [address] at rendered
                  cases rendered
                  exact ⟨p1, front, no, parts.1, parts.2, rfl, nonempty, floor, number, address,
                    rfl, rfl, rfl, rfl, rfl⟩

theorem wellFormed_of_render {line : Nat} {header : ModernHeader}
    (rendered : ctx.commentRenderModernHeader line = some header) : header.WellFormed := by
  obtain ⟨_, second, p1, front, no, content, rest, found, nonempty, floor, _, address, author,
    tombstone, text, payload, _⟩ := render_eq_some rendered
  obtain ⟨above, below, _, first⟩ := authorEnd_spec found
  obtain ⟨whole, _⟩ := cutLast_eq_some floor
  obtain ⟨frontWhole, restBars⟩ := cutLast_eq_some address
  have plain : ∀ byte ∈ content ++ rest, byte ≠ newline ∧ byte ≠ 0 := by
    intro byte member
    have inside : byte ∈ ctx.slice (p1 + 1) (ctx.lineEnd line) := by
      rw [whole, frontWhole]
      rcases List.mem_append.1 member with left | right
      · simp [left]
      · simp [right]
    obtain ⟨place, after, before, rfl⟩ := mem_slice inside
    exact before_lineEnd (by omega) before
  have length : ctx.userLen line p1 =
      if header.isTombstone then p1 - (line + 1) - 1 else p1 - (line + 1) := by
    rw [userLen, tombstone]
    simp only [decide_eq_true_eq]
  have within : line + 1 + ctx.userLen line p1 ≤ p1 := by
    rw [length]
    split <;> omega
  have authorPlain : ∀ byte ∈ header.author, byte ≠ bar ∧ byte ≠ newline ∧ byte ≠ 0 := by
    intro byte member
    rw [author] at member
    obtain ⟨place, after, before, rfl⟩ := mem_slice member
    exact ⟨first place after (by omega), before_lineEnd (show line ≤ place by omega) (by omega)⟩
  constructor
  · rw [author, slice_cons (by omega)]
    exact List.cons_ne_nil _ _
  · rw [author, slice_cons (by omega), List.head?_cons]
    exact fun same => second (Option.some.inj same)
  · exact fun member => (authorPlain _ member).1 rfl
  · intro alive
    rw [alive, if_neg (by simp)] at length
    have last : ctx.memory (p1 - 1) ≠ tombstoneMark := by
      rw [alive, eq_comm, decide_eq_false_iff_not] at tombstone
      exact fun mark => tombstone ⟨by omega, mark⟩
    rw [author, show line + 1 + ctx.userLen line p1 = p1 - 1 + 1 by omega, slice_concat (by omega),
      List.getLast?_concat]
    exact fun same => last (Option.some.inj same)
  · exact fun byte member => (authorPlain byte member).2
  · intro byte member
    exact plain byte (List.mem_append_left _ (text ▸ member))
  · intro byte member
    rw [payload] at member
    have kept := mem_of_mem_trimRight member
    exact ⟨fun same => restBars (same ▸ kept), plain byte (List.mem_append_right _ kept)⟩

/-! ### A header in the memory -/

def Lies (memory : Memory) : Nat → Bytes → Prop
  | _, [] => True
  | place, byte :: rest => memory place = byte ∧ Lies memory (place + 1) rest

theorem lies_append {memory : Memory} {place : Nat} {left right : Bytes} :
    Lies memory place (left ++ right) ↔
      Lies memory place left ∧ Lies memory (place + left.length) right := by
  induction left generalizing place with
  | nil => simp [Lies]
  | cons byte left ih =>
      rw [List.cons_append, Lies, Lies, ih, and_assoc, List.length_cons,
        show place + 1 + left.length = place + (left.length + 1) by omega]

theorem find?_of_lies {memory : Memory} (test : UInt8 → Prop) [DecidablePred test] {place count : Nat}
    {front : Bytes} {byte : UInt8} (lies : Lies memory place (front ++ [byte]))
    (passes : ∀ before ∈ front, ¬ test before) (stops : test byte) (room : front.length < count) :
    (List.range' place count).find? (fun place => test (memory place)) =
      some (place + front.length) := by
  induction front generalizing place count with
  | nil =>
      obtain ⟨count, rfl⟩ := Nat.exists_eq_succ_of_ne_zero (Nat.ne_of_gt room)
      rw [List.nil_append, Lies] at lies
      rw [List.range'_succ, List.find?_cons_of_pos (by simpa [lies.1] using stops)]
      rfl
  | cons first front ih =>
      rw [List.length_cons] at room
      obtain ⟨count, rfl⟩ := Nat.exists_eq_succ_of_ne_zero (Nat.ne_of_gt (Nat.zero_lt_of_lt room))
      rw [List.forall_mem_cons] at passes
      rw [List.cons_append, Lies] at lies
      rw [List.range'_succ, List.find?_cons_of_neg (by simpa [lies.1] using passes.1),
        ih lies.2 passes.2 (by omega), List.length_cons]
      congr 1
      omega

theorem slice_of_lies {place : Nat} {text : Bytes} (lies : Lies ctx.memory place text) :
    ctx.slice place (place + text.length) = text := by
  induction text generalizing place with
  | nil => simp [slice]
  | cons byte text ih =>
      rw [Lies] at lies
      rw [slice_cons (by rw [List.length_cons]; omega), lies.1, List.length_cons,
        show place + (text.length + 1) = place + 1 + text.length by omega, ih lies.2]

theorem parseFloor_digits {number : Bytes} (nonempty : number ≠ [])
    (digits : ∀ byte ∈ number, isDigitByte byte = true) (isModified : Bool) :
    parseFloor (modifiedText isModified ++ number) = some (isModified, number) := by
  have trims : trimRight [carriageReturn, newline, blank] (modifiedText isModified ++ number) =
      modifiedText isModified ++ number := by
    rcases List.eq_nil_or_concat number with empty | ⟨front, last, whole⟩
    · exact absurd empty nonempty
    · have digit := digits last (by rw [whole]; simp)
      rw [whole, List.concat_eq_append, ← List.append_assoc, trimRight_concat, if_neg]
      intro member
      have blanks : ∀ byte ∈ [carriageReturn, newline, blank], isDigitByte byte = false := by
        simp [carriageReturn, newline, blank, isDigitByte]
      rw [blanks last member] at digit
      cases digit
  obtain ⟨first, rest, rfl⟩ := List.exists_cons_of_ne_nil nonempty
  rw [parseFloor, trims]
  cases isModified with
  | true => rfl
  | false =>
      have digit := digits first List.mem_cons_self
      have apart : first ≠ modifiedMark := by
        rintro rfl
        cases digit
      exact if_neg apart

theorem userLen_of_lies {fields : HeaderFields} (wellFormed : fields.WellFormed) {line : Nat}
    (lies : Lies ctx.memory (line + 1) (fields.author ++ tombstoneText fields.isTombstone)) {p1 : Nat}
    (place : p1 = line + 1 + (fields.author ++ tombstoneText fields.isTombstone).length) :
    ctx.userLen line p1 = fields.author.length ∧
      decide (0 < p1 - (line + 1) ∧ ctx.memory (p1 - 1) = tombstoneMark) = fields.isTombstone := by
  have some := List.length_pos_iff.2 wellFormed.author
  rw [lies_append] at lies
  rw [List.length_append] at place
  cases dead : fields.isTombstone with
  | true =>
      rw [dead] at lies place
      rw [show tombstoneText true = [tombstoneMark] from rfl] at lies place
      rw [List.length_singleton] at place
      have mark : ctx.memory (p1 - 1) = tombstoneMark := by
        rw [place]
        exact lies.2.1
      refine ⟨?_, decide_eq_true ⟨by omega, mark⟩⟩
      rw [userLen, if_pos ⟨by omega, mark⟩]
      omega
  | false =>
      rw [dead] at place
      rw [show tombstoneText false = [] from rfl, List.length_nil] at place
      rcases List.eq_nil_or_concat fields.author with empty | ⟨front, final, whole⟩
      · exact absurd empty wellFormed.author
      · rw [List.concat_eq_append] at whole
        have differs : final ≠ tombstoneMark := by
          have last := wellFormed.last dead
          rw [whole, List.getLast?_concat] at last
          exact fun same => last (congrArg Option.some same)
        rw [whole] at lies place
        rw [lies_append] at lies
        rw [List.length_append, List.length_singleton] at place
        have mark : ctx.memory (p1 - 1) ≠ tombstoneMark := by
          rw [show p1 - 1 = line + 1 + front.length by omega, lies.1.2.1]
          exact differs
        refine ⟨?_, decide_eq_false fun both => mark both.2⟩
        rw [userLen, if_neg fun both => mark both.2, whole, List.length_append,
          List.length_singleton]
        omega

theorem plain_text {fields : HeaderFields} (wellFormed : fields.WellFormed)
    (digits : ∀ byte ∈ fields.number, isDigitByte byte = true) :
    ∀ byte ∈ fields.text, ¬ (byte = newline ∨ byte = 0) := by
  have fixed : ∀ byte ∈ [bar, tombstoneMark, modifiedMark], ¬ (byte = newline ∨ byte = 0) := by
    simp [bar, tombstoneMark, modifiedMark, newline]
  have plainDigits : ∀ byte ∈ fields.number, ¬ (byte = newline ∨ byte = 0) := by
    rintro byte member (rfl | rfl)
    · exact absurd (digits _ member) (by decide)
    · exact absurd (digits _ member) (by decide)
  have marks : ∀ byte ∈ tombstoneText fields.isTombstone ++ modifiedText fields.isModified,
      byte ∈ [bar, tombstoneMark, modifiedMark] := by
    cases fields.isTombstone <;> cases fields.isModified <;> simp [tombstoneText, modifiedText]
  intro byte member
  simp only [HeaderFields.text, List.mem_cons, List.mem_append] at member
  rcases member with rfl | (author | mark) | rfl | content | rfl | payload | rfl | mark | number
  · exact fixed _ (by simp)
  · exact not_or.2 (wellFormed.authorPlain byte author)
  · exact fixed _ (marks byte (List.mem_append_left _ mark))
  · exact fixed _ (by simp)
  · exact not_or.2 (wellFormed.contentPlain byte content)
  · exact fixed _ (by simp)
  · exact not_or.2 (wellFormed.payloadPlain byte payload).2
  · exact fixed _ (by simp)
  · exact fixed _ (marks byte (List.mem_append_right _ mark))
  · exact plainDigits byte number

theorem render_of_lies {fields : HeaderFields} (wellFormed : fields.WellFormed)
    (trimmed : fields.payload.getLast? ≠ some blank) (nonempty : fields.number ≠ [])
    (digits : ∀ byte ∈ fields.number, isDigitByte byte = true) {line : Nat}
    (lies : Lies ctx.memory line (fields.text ++ [newline]))
    (within : line + fields.text.length < ctx.bufEnd) :
    ∃ header, ctx.commentRenderModernHeader line = some header ∧
      header.toHeaderFields = fields ∧ header.tokens = payloadTokens fields.payload := by
  have eol : ctx.lineEnd line = line + fields.text.length := by
    rw [lineEnd, find?_of_lies (fun byte => byte = newline ∨ byte = 0) lies
      (plain_text wellFormed digits) (.inl rfl) (by omega)]
    rfl
  have whole := lies_append.1 lies
  have parts := whole.1
  rw [HeaderFields.text, Lies, lies_append, Lies] at parts
  obtain ⟨first, author, behind, rest⟩ := parts
  generalize p1Place : line + 1 + (fields.author ++ tombstoneText fields.isTombstone).length = p1
    at behind rest
  have longer : p1 < ctx.lineEnd line := by
    rw [eol, ← p1Place, HeaderFields.text]
    simp only [List.length_cons, List.length_append]
    omega
  have found : ctx.authorEnd line = some p1 := by
    have run : Lies ctx.memory (line + 1)
        (fields.author ++ tombstoneText fields.isTombstone ++ [bar]) := by
      rw [lies_append, p1Place]
      exact ⟨author, behind, trivial⟩
    have free : ∀ byte ∈ fields.author ++ tombstoneText fields.isTombstone, ¬ byte = bar := by
      intro byte member same
      rcases List.mem_append.1 member with inside | mark
      · exact wellFormed.bars (same ▸ inside)
      · cases dead : fields.isTombstone with
        | true =>
            rw [dead] at mark
            rw [List.mem_singleton.1 mark] at same
            exact absurd same (by decide)
        | false =>
            rw [dead] at mark
            cases mark
    rw [authorEnd, find?_of_lies (fun byte => byte = bar) run free rfl (by omega), p1Place]
  obtain ⟨length, tombstone⟩ := userLen_of_lies wellFormed author p1Place.symm
  have second : ctx.memory (line + 1) ≠ blank := by
    obtain ⟨head, tail, author_eq⟩ := List.exists_cons_of_ne_nil wellFormed.author
    have starts := wellFormed.head
    rw [author_eq] at author starts
    rw [author.1]
    exact fun same => starts (congrArg Option.some same)
  have restSlice : ctx.slice (p1 + 1) (ctx.lineEnd line) = fields.content ++ bar ::
      (fields.payload ++ bar :: (modifiedText fields.isModified ++ fields.number)) := by
    have read := slice_of_lies rest
    rw [← read]
    congr 1
    rw [eol, ← p1Place, HeaderFields.text]
    simp only [List.length_cons, List.length_append]
    omega
  have floorBars : bar ∉ modifiedText fields.isModified ++ fields.number := by
    intro member
    rcases List.mem_append.1 member with mark | number
    · revert mark
      cases fields.isModified <;> decide
    · exact absurd (digits _ number) (by decide)
  have floor : cutLast bar (ctx.slice (p1 + 1) (ctx.lineEnd line)) =
      some (fields.content ++ bar :: fields.payload,
        modifiedText fields.isModified ++ fields.number) := by
    rw [restSlice, ← List.cons_append, ← List.append_assoc, cutLast_append floorBars]
  have address : cutLast bar (fields.content ++ bar :: fields.payload) =
      some (fields.content, fields.payload) :=
    cutLast_append (fun member => (wellFormed.payloadPlain _ member).1 rfl) _
  have payload : trimRight [blank] fields.payload = fields.payload := by
    rcases List.eq_nil_or_concat fields.payload with empty | ⟨front, final, same⟩
    · rw [empty]
      rfl
    · rw [same, List.concat_eq_append, List.getLast?_concat] at trimmed
      rw [same, List.concat_eq_append, trimRight_concat, if_neg]
      exact fun member => trimmed (congrArg Option.some (List.mem_singleton.1 member))
  rw [commentRenderModernHeader]
  dsimp only
  rw [if_neg (by simp [first, second]), found]
  dsimp only
  rw [length, if_neg (Nat.ne_of_gt (List.length_pos_iff.2 wellFormed.author)), floor]
  dsimp only
  rw [parseFloor_digits nonempty digits, address]
  dsimp only
  rw [payload, tombstone, slice_of_lies (lies_append.1 author).1]
  exact ⟨_, rfl, rfl, rfl⟩

end CommentCtx

end Pttbbs.Mbbsd.Comments
