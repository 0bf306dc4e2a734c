/-
The state of a comment while an article is shown.

A page that starts in the middle of a comment looks backwards for its header.  Lines that are
skipped carry the state forwards.  Both find the last line that is no continuation.
-/

import Pttbbs.Common.Dbcs
import Mathlib.Data.List.Induction

namespace Pttbbs.Mbbsd.Comments

open Pttbbs.Lib
open Pttbbs.Common.Dbcs (Memory CString strncasecmp)

/-! ### The context -/

def bar : UInt8 := 0x7C

def blank : UInt8 := 0x20

def newline : UInt8 := 0x0A

def carriageReturn : UInt8 := 0x0D

/-- `!`, behind the author of a deleted comment -/
def tombstoneMark : UInt8 := 0x21

def idLen : Nat := 12

inductive Theme where
  | classic
  | simple
  | aligned
deriving DecidableEq, Repr

/-- What `comment_ctx_t` says of the article.  Addresses are places in the memory. -/
structure CommentCtx where
  memory : Memory
  bufEnd : Nat
  commentsStart : Option Nat
  opAuthor : Option CString
  theme : Theme

structure LineState where
  curIsOp : Bool
  curHeaderWidth : Nat
  curIsTombstone : Bool
deriving DecidableEq, Repr

def LineState.zero : LineState :=
  { curIsOp := false, curHeaderWidth := 0, curIsTombstone := false }

namespace CommentCtx

variable (ctx : CommentCtx)

/-! ### Headers -/

/-- `strchrnul` for the end of the line, no later than `buf_end`. -/
def lineEnd (line : Nat) : Nat :=
  ((List.range' line (ctx.bufEnd - line)).find? fun place =>
    ctx.memory place = newline ∨ ctx.memory place = 0).getD ctx.bufEnd

/-- `p1`, the `|` behind the author. -/
def authorEnd (line : Nat) : Option Nat :=
  (List.range' (line + 1) (ctx.lineEnd line - (line + 1))).find? fun place =>
    ctx.memory place = bar

/-- `user_len`, without the mark of a deleted comment. -/
def userLen (line p1 : Nat) : Nat :=
  let len := p1 - (line + 1)
  if 0 < len ∧ ctx.memory (p1 - 1) = tombstoneMark then len - 1 else len

def isModernHeaderOp (line : Nat) : Bool :=
  match ctx.opAuthor with
  | none => false
  | some author =>
      if author.text = [] ∨ ctx.memory line ≠ bar then false
      else if ctx.memory (line + 1) = blank then false
      else
        match ctx.authorEnd line with
        | none => false
        | some p1 =>
            let userLen := ctx.userLen line p1
            if userLen = 0 then false
            else
              userLen = author.text.length ∧
                strncasecmp userLen (fun index => ctx.memory (line + 1 + index)) author.memory = 0

def getModernHeaderWidth (line : Nat) : Nat :=
  if ctx.memory line ≠ bar then 0
  else if ctx.memory (line + 1) = blank then 0
  else
    match ctx.authorEnd line with
    | none => 0
    | some p1 =>
        let userLen := ctx.userLen line p1
        if userLen = 0 then 0
        else if ctx.theme = .aligned then
          let uWidth := if userLen < idLen then idLen else userLen
          uWidth + 2
        else userLen + 2

def headerState (line : Nat) : LineState :=
  { curIsOp := ctx.isModernHeaderOp line
    curHeaderWidth := ctx.getModernHeaderWidth line
    curIsTombstone :=
      match ctx.authorEnd line with
      | none => false
      | some p1 => ctx.memory (p1 - 1) = tombstoneMark }

/-! ### The two functions -/

def commentUpdateLineState (state : LineState) (line : Nat) : LineState :=
  match ctx.commentsStart with
  | none => state
  | some start =>
      if line < start then state
      else if ctx.memory line = bar then
        if ctx.memory (line + 1) ≠ blank then ctx.headerState line else state
      else .zero

def lineStart (start : Nat) : Nat → Nat
  | 0 => 0
  | place + 1 =>
      if start < place + 1 ∧ ctx.memory place ≠ newline then lineStart start place else place + 1

theorem lineStart_le (start place : Nat) : ctx.lineStart start place ≤ place := by
  induction place with
  | zero => exact Nat.le_refl _
  | succ place ih =>
      rw [lineStart]
      split
      · omega
      · exact Nat.le_refl _

/-- The step over the carriage return in front of a newline. -/
def stepReturn (start place : Nat) : Nat :=
  if start < place ∧ ctx.memory place = newline ∧ ctx.memory (place - 1) = carriageReturn then
    place - 1
  else place

theorem stepReturn_le (start place : Nat) : ctx.stepReturn start place ≤ place := by
  rw [stepReturn]
  split <;> omega

def scanBack (start place : Nat) : LineState :=
  if _more : start < place then
    let line := ctx.lineStart start (ctx.stepReturn start (place - 1))
    if ctx.memory line = bar then
      if ctx.memory (line + 1) ≠ blank then ctx.headerState line else scanBack start line
    else .zero
  else .zero
termination_by place
decreasing_by
  have first := ctx.lineStart_le start (ctx.stepReturn start (place - 1))
  have second := ctx.stepReturn_le start (place - 1)
  omega

def commentInitOpState (lineHead : Nat) : LineState :=
  match ctx.commentsStart with
  | none => .zero
  | some start => if lineHead ≤ start then .zero else ctx.scanBack start lineHead

/-! ### The lines of a section -/

def IsLine (start place : Nat) : Prop :=
  start ≤ place ∧ (place = start ∨ ctx.memory (place - 1) = newline)

instance (start place : Nat) : Decidable (ctx.IsLine start place) :=
  inferInstanceAs (Decidable (_ ∧ _))

def linesBefore (start place : Nat) : List Nat :=
  (List.range' start (place - start)).filter fun line => ctx.IsLine start line

variable {ctx}

theorem lineStart_spec {start place : Nat} (within : start ≤ place) :
    ctx.IsLine start (ctx.lineStart start place) ∧
      ∀ other, ctx.lineStart start place < other → other ≤ place → ¬ ctx.IsLine start other := by
  induction place with
  | zero =>
      have zero : start = 0 := by omega
      refine ⟨⟨by rw [zero]; exact Nat.zero_le _, .inl (by rw [zero]; rfl)⟩, ?_⟩
      intro other after before
      omega
  | succ place ih =>
      rw [lineStart]
      split
      · rename_i goes
        obtain ⟨line, last⟩ := ih (by omega)
        refine ⟨line, ?_⟩
        intro other after before
        rcases Nat.lt_or_ge place other with top | lower
        · have same : other = place + 1 := by omega
          subst same
          rintro ⟨_, first | stops⟩
          · omega
          · exact goes.2 stops
        · exact last other after lower
      · rename_i stops
        refine ⟨⟨within, ?_⟩, ?_⟩
        · by_cases first : start < place + 1
          · exact .inr (not_not.1 fun other => stops ⟨first, other⟩)
          · exact .inl (by omega)
        · intro other after before
          omega

theorem lineStart_stepReturn (start place : Nat) :
    ctx.lineStart start (ctx.stepReturn start place) = ctx.lineStart start place := by
  rw [stepReturn]
  split
  · rename_i carriage
    obtain ⟨more, _, before⟩ := carriage
    obtain ⟨previous, rfl⟩ := Nat.exists_eq_succ_of_ne_zero (Nat.ne_of_gt (Nat.zero_lt_of_lt more))
    rw [Nat.succ_sub_one] at before ⊢
    rw [lineStart, if_pos ⟨more, by rw [before]; decide⟩]
  · rfl

theorem linesBefore_snoc {start place : Nat} (more : start < place) :
    ctx.linesBefore start place =
      ctx.linesBefore start (ctx.lineStart start (place - 1)) ++
        [ctx.lineStart start (place - 1)] := by
  have below := ctx.lineStart_le start (place - 1)
  obtain ⟨line, last⟩ := @lineStart_spec ctx start (place - 1) (by omega)
  generalize ctx.lineStart start (place - 1) = found at *
  have ranges : List.range' start (place - start) =
      List.range' start (found - start) ++ found :: List.range' (found + 1) (place - 1 - found) := by
    have cut := List.range'_append_1 (s := start) (m := found - start) (n := place - found)
    have start_le := line.1
    rw [show start + (found - start) = found by omega,
      show found - start + (place - found) = place - start by omega,
      show place - found = place - 1 - found + 1 by omega, List.range'_succ] at cut
    exact cut.symm
  have rest : (List.range' (found + 1) (place - 1 - found)).filter
      (fun line => decide (ctx.IsLine start line)) = [] := by
    rw [List.filter_eq_nil_iff]
    intro other member
    rw [List.mem_range'_1] at member
    simpa using last other (by omega) (by omega)
  rw [linesBefore, ranges, List.filter_append, List.filter_cons_of_pos (by simpa using line), rest]
  rfl

/-! ### Both ways to the state -/

def decides (ctx : CommentCtx) (line : Nat) : Option LineState :=
  if ctx.memory line = bar then
    if ctx.memory (line + 1) ≠ blank then some (ctx.headerState line) else none
  else some .zero

theorem foldl_last {line state : Type} (sets : line → Option state) (initial : state)
    (lines : List line) :
    lines.foldl (fun before line => (sets line).getD before) initial =
      (lines.reverse.findSome? sets).getD initial := by
  induction lines using List.reverseRecOn with
  | nil => rfl
  | append_singleton lines line ih =>
      rw [List.foldl_append, ih, List.reverse_append, List.reverse_singleton,
        List.singleton_append, List.findSome?_cons, List.foldl_cons, List.foldl_nil]
      cases sets line with
      | none => rfl
      | some state => rfl

theorem update_decides {start line : Nat} (started : ctx.commentsStart = some start)
    (within : start ≤ line) (state : LineState) :
    ctx.commentUpdateLineState state line = (ctx.decides line).getD state := by
  rw [commentUpdateLineState, started, decides]
  simp only [Nat.not_lt.2 within, if_false]
  split
  · split
    · rfl
    · rfl
  · rfl

theorem scanBack_step {start place : Nat} (more : start < place) :
    ctx.scanBack start place =
      (ctx.decides (ctx.lineStart start (place - 1))).getD
        (ctx.scanBack start (ctx.lineStart start (place - 1))) := by
  rw [scanBack, dif_pos more, lineStart_stepReturn, decides]
  dsimp only
  split
  · split <;> rfl
  · rfl

theorem scanBack_eq {start : Nat} (place : Nat) :
    ctx.scanBack start place =
      ((ctx.linesBefore start place).reverse.findSome? ctx.decides).getD .zero := by
  induction place using Nat.strong_induction_on with
  | _ place ih =>
      by_cases more : start < place
      · have below := ctx.lineStart_le start (place - 1)
        rw [scanBack_step more, linesBefore_snoc more, List.reverse_append,
          List.reverse_singleton, List.singleton_append, List.findSome?_cons, ih _ (by omega)]
        cases ctx.decides (ctx.lineStart start (place - 1)) with
        | none => rfl
        | some state => rfl
      · have empty : ctx.linesBefore start place = [] := by
          rw [linesBefore, show place - start = 0 by omega]
          rfl
        rw [scanBack, dif_neg more, empty]
        rfl

/-- The state that is found backwards is the one that every line before has led to. -/
theorem init_op_state_eq_foldl {start : Nat} (started : ctx.commentsStart = some start)
    (lineHead : Nat) :
    ctx.commentInitOpState lineHead =
      (ctx.linesBefore start lineHead).foldl ctx.commentUpdateLineState .zero := by
  have initial : ctx.commentInitOpState lineHead = ctx.scanBack start lineHead := by
    rw [commentInitOpState, started]
    change (if lineHead ≤ start then LineState.zero else ctx.scanBack start lineHead) = _
    split
    · rw [scanBack, dif_neg (by omega)]
    · rfl
  have updates : (ctx.linesBefore start lineHead).foldl ctx.commentUpdateLineState .zero =
      (ctx.linesBefore start lineHead).foldl
        (fun state line => (ctx.decides line).getD state) .zero := by
    refine List.foldl_ext _ _ _ ?_
    intro state other member
    rw [linesBefore, List.mem_filter, List.mem_range'_1] at member
    exact update_decides started member.1.1 state
  rw [initial, updates, foldl_last, scanBack_eq lineHead]

/-- `|ab!|x|1`, a continuation and the line behind it: the state is that of the header. -/
theorem init_op_state_continuation :
    let ctx : CommentCtx :=
      { memory := Common.Dbcs.memoryOf (fun _ => 0)
          [0x7C, 0x61, 0x62, 0x21, 0x7C, 0x78, 0x7C, 0x31, 0x0A, 0x7C, 0x20, 0x79, 0x0D, 0x0A, 0x7C]
        bufEnd := 15
        commentsStart := some 0
        opAuthor := none
        theme := .aligned }
    ctx.linesBefore 0 14 = [0, 9] ∧
      [0, 9].foldl ctx.commentUpdateLineState .zero =
        { curIsOp := false, curHeaderWidth := 14, curIsTombstone := true } ∧
      ctx.commentInitOpState 14 = (ctx.linesBefore 0 14).foldl ctx.commentUpdateLineState .zero := by
  intro ctx
  exact ⟨by decide, by decide, init_op_state_eq_foldl rfl 14⟩

end CommentCtx

end Pttbbs.Mbbsd.Comments
