/-
The pieces of a stream, and what both column functions make of them.

A piece is a character, for Big5 with the control sequences between its halves, or a control
sequence.  The offset for a number of columns is the end of the pieces that fit.
-/

import Pttbbs.Common.StreamWidth
import Pttbbs.Lib.Fitting

namespace Pttbbs.Common.StreamWidth

open Pttbbs.Lib
open Pttbbs.Common.ControlSeq (escChr skipControlSequence skip_range)
open Pttbbs.Common.Multibyte

/-! ### Pieces -/

structure Piece where
  bytes : Bytes
  width : Nat
deriving DecidableEq, Repr

def firstPiece (build : Build) : Bytes → Nat × Nat
  | [] => (0, 0)
  | byte :: rest =>
      if byte = escChr then (skipControlSequence rest, 0)
      else if isPrintable byte then (1, 1)
      else
        match splitPair build (byte :: rest) with
        | some size => (size, 2)
        | none => (mbBytes build (byte :: rest), mbWidth build (byte :: rest))

def pieces (build : Build) : Bytes → List Piece
  | [] => []
  | byte :: rest =>
      let first := firstPiece build (byte :: rest)
      { bytes := (byte :: rest).take first.1, width := first.2 } ::
        pieces build (rest.drop (first.1 - 1))
termination_by s => s.length
decreasing_by
  rw [List.length_drop, List.length_cons]
  omega

def Piece.columns (piece : Piece) : List Unit := List.replicate piece.width ()

theorem splitPair_range {build : Build} {byte : UInt8} {rest : Bytes} {size : Nat}
    (pair : splitPair build (byte :: rest) = some size) :
    build = .big5 ∧ isLead byte = true ∧ size = skipAll rest + 2 ∧
      ∃ trail others, rest.drop (skipAll rest) = trail :: others ∧ isTrail trail = true := by
  cases build with
  | utf8 ucsWidth => cases pair
  | big5 =>
      unfold splitPair at pair
      dsimp only at pair
      split at pair
      · rename_i lead
        split at pair
        · rename_i trail others behind
          split at pair
          · rename_i second
            exact ⟨rfl, lead, (Option.some.inj pair).symm, trail, others, behind, second⟩
          · cases pair
        · cases pair
      · cases pair

theorem firstPiece_range (build : Build) (byte : UInt8) (rest : Bytes) :
    1 ≤ (firstPiece build (byte :: rest)).1 ∧
      (firstPiece build (byte :: rest)).1 ≤ (byte :: rest).length := by
  rw [firstPiece]
  split
  · exact skip_range rest
  · split
    · exact ⟨Nat.le_refl _, Nat.succ_le_succ (Nat.zero_le _)⟩
    · split
      · rename_i size pair
        obtain ⟨_, _, same, trail, others, behind, _⟩ := splitPair_range pair
        have lengths := congrArg List.length behind
        rw [List.length_drop, List.length_cons] at lengths
        rw [List.length_cons]
        dsimp only
        omega
      · exact mbBytes_range (List.cons_ne_nil byte rest)

theorem drop_first (build : Build) (byte : UInt8) (rest : Bytes) :
    (byte :: rest).drop (firstPiece build (byte :: rest)).1 =
      rest.drop ((firstPiece build (byte :: rest)).1 - 1) := by
  obtain ⟨size, same⟩ := Nat.exists_eq_succ_of_ne_zero
    (Nat.ne_of_gt (firstPiece_range build byte rest).1)
  rw [same, List.drop_succ_cons, Nat.succ_sub_one]

theorem pieces_bytes (build : Build) (s : Bytes) : (pieces build s).flatMap Piece.bytes = s := by
  induction s using pieces.induct build with
  | case1 => rw [pieces]; rfl
  | case2 byte rest first ih =>
      rw [pieces, List.flatMap_cons, ih, ← drop_first, List.take_append_drop]

/-! ### Characters are whole -/

/-! ### The offset for a number of columns -/

theorem colLoop_cons (build : Build) (count cols : Nat) (byte : UInt8) (rest : Bytes)
    (fits : cols ≤ count) :
    colLoop build count cols (byte :: rest) =
      if cols + (firstPiece build (byte :: rest)).2 > count then (0, cols)
      else
        let behind := colLoop build count (cols + (firstPiece build (byte :: rest)).2)
          (rest.drop ((firstPiece build (byte :: rest)).1 - 1))
        ((firstPiece build (byte :: rest)).1 + behind.1, behind.2) := by
  rw [colLoop, firstPiece]
  by_cases escape : byte = escChr
  · rw [if_pos escape, if_pos escape, if_neg (by omega)]
    rfl
  · rw [if_neg escape, if_neg escape]
    by_cases printable : isPrintable byte = true
    · rw [if_pos printable, if_pos printable]
      rfl
    · rw [if_neg printable, if_neg printable]
      cases splitPair build (byte :: rest) with
      | some size => rfl
      | none => rfl

theorem colLoop_fitting (build : Build) (count cols : Nat) (s : Bytes) (fits : cols ≤ count) :
    colLoop build count cols s =
      (((fitting Piece.columns (count - cols) (pieces build s)).flatMap Piece.bytes).length,
        cols + (fit Piece.columns (count - cols) (pieces build s)).length) := by
  induction s using pieces.induct build generalizing cols with
  | case1 =>
      rw [colLoop, pieces]
      rfl
  | case2 byte rest first ih =>
      have range := firstPiece_range build byte rest
      simp only [first] at ih
      rw [colLoop_cons build count cols byte rest fits, pieces]
      dsimp only
      generalize firstPiece build (byte :: rest) = found at *
      have columns : (Piece.columns { bytes := (byte :: rest).take found.1, width := found.2 }).length =
        found.2 := List.length_replicate
      by_cases more : cols + found.2 > count
      · rw [if_pos more, fit_cons_of_lt _ _ (by omega), fitting, if_neg (by omega)]
        rfl
      · rw [if_neg more, fit_cons_of_le _ _ (by omega), fitting, if_pos (by omega), columns,
          ih _ (by omega), Nat.sub_sub, List.flatMap_cons, List.length_append, List.length_append,
          columns, List.length_take, Nat.min_eq_left range.2, Nat.add_assoc]

/-! ### The columns of so many bytes -/

def isControlByte (byte : UInt8) : Bool := byte < 0x20 && byte ≠ escChr || byte = 0x7F

def Piece.isControl (piece : Piece) : Bool :=
  match piece.bytes with
  | [byte] => isControlByte byte
  | _ => false

/-- What the count of columns adds for a piece: for Big5 a control character is one column. -/
def Piece.counted (build : Build) (piece : Piece) : Nat :=
  match build with
  | .big5 => if piece.isControl then 1 else piece.width
  | .utf8 _ => piece.width

theorem widthLoop_zero (build : Build) (s : Bytes) : widthLoop build 0 s = 0 := by
  cases s with
  | nil => rw [widthLoop]
  | cons byte rest => cases build <;> rw [widthLoop, if_pos rfl]

theorem widthLoop_escape (build : Build) (left : Nat) (rest : Bytes) :
    widthLoop build (skipControlSequence rest + left) (escChr :: rest) =
      widthLoop build left (rest.drop (skipControlSequence rest - 1)) := by
  have size := (skip_range rest).1
  cases build <;> rw [widthLoop, if_neg (by omega), if_pos rfl, Nat.add_sub_cancel_left]

theorem widthLoop_byte {byte : UInt8} (plain : byte ≠ escChr) (left : Nat) (rest : Bytes) :
    widthLoop .big5 (1 + left) (byte :: rest) = 1 + widthLoop .big5 left rest := by
  rw [widthLoop, if_neg (by omega), if_neg plain, Nat.add_sub_cancel_left]

theorem widthLoop_skipAll (build : Build) (left : Nat) (s : Bytes) :
    widthLoop build (skipAll s + left) s = widthLoop build left (s.drop (skipAll s)) := by
  induction s using skipAll.induct with
  | case1 => rw [skipAll, Nat.zero_add, List.drop_zero]
  | case2 rest ih =>
      have size := (skip_range rest).1
      rw [skipAll, if_pos rfl, Nat.add_assoc, widthLoop_escape, ih, List.drop_drop]
      congr 1
      obtain ⟨before, same⟩ := Nat.exists_eq_succ_of_ne_zero (Nat.ne_of_gt size)
      rw [same, Nat.succ_sub_one, Nat.succ_add, List.drop_succ_cons]
  | case3 byte rest plain => rw [skipAll, if_neg plain, Nat.zero_add, List.drop_zero]

theorem splitPair_next {lead trail : UInt8} (rest : Bytes) (first : isLead lead = true)
    (second : isTrail trail = true) : splitPair .big5 (lead :: trail :: rest) = some 2 := by
  have plain : trail ≠ escChr := by
    rintro rfl
    cases second
  have none : skipAll (trail :: rest) = 0 := by rw [skipAll, if_neg plain]
  rw [splitPair, if_pos first, none, List.drop_zero]
  exact if_pos second

theorem byte_classes (byte : UInt8) :
    (isPrintable byte = true →
        byte < 0x80 ∧ byte ≥ 0x20 ∧ byte ≠ 0x7F ∧ isControlByte byte = false) ∧
      (isLead byte = true → isControlByte byte = false) ∧
      (byte < 0x80 → ¬ isPrintable byte = true → mbCharWidth .big5 byte.toNat = 0) ∧
      (byte ≠ escChr → ¬ isPrintable byte = true →
        (isControlByte byte = true ↔ byte < 0x80)) :=
  forall_byte (fun byte =>
    (isPrintable byte = true →
        byte < 0x80 ∧ byte ≥ 0x20 ∧ byte ≠ 0x7F ∧ isControlByte byte = false) ∧
      (isLead byte = true → isControlByte byte = false) ∧
      (byte < 0x80 → ¬ isPrintable byte = true → mbCharWidth .big5 byte.toNat = 0) ∧
      (byte ≠ escChr → ¬ isPrintable byte = true →
        (isControlByte byte = true ↔ byte < 0x80))) (by decide +kernel) byte

theorem control_width {byte : UInt8} (low : byte < 0x80) (notPrintable : ¬ isPrintable byte = true) :
    mbCharWidth .big5 byte.toNat = 0 :=
  (byte_classes byte).2.2.1 low notPrintable

theorem big5_alone {byte : UInt8} {rest : Bytes} (notPrintable : ¬ isPrintable byte = true)
    (alone : splitPair .big5 (byte :: rest) = none) :
    mbBytes .big5 (byte :: rest) = 1 ∧
      mbWidth .big5 (byte :: rest) = if byte < 0x80 then 0 else 1 := by
  have ready := firstReady_big5 byte rest
  have bytes : mbBytes .big5 (byte :: rest) =
      ((firstReady big5AddByte big5Pending big5Start (byte :: rest)).map Big5Ctx.len).getD 1 := rfl
  have width : mbWidth .big5 (byte :: rest) =
      (firstReady big5AddByte big5Pending big5Start (byte :: rest)).elim 1
        fun ctx => mbCharWidth .big5 (big5GetChar ctx).1 := by
    rw [mbWidth]
    cases firstReady big5AddByte big5Pending big5Start (byte :: rest) <;> rfl
  by_cases ascii : byte < 0x80
  · rw [if_pos ascii] at ready
    rw [bytes, width, ready, if_pos ascii]
    exact ⟨rfl, control_width ascii notPrintable⟩
  · rw [if_neg ascii] at ready
    have single : ¬ (isLead byte = true ∧ isTrail (rest.headD 0) = true) := by
      rintro ⟨lead, trail⟩
      cases rest with
      | nil => cases trail
      | cons second others =>
          rw [@splitPair_next byte second others lead trail] at alone
          cases alone
    rw [if_neg single] at ready
    rw [bytes, width, ready, if_neg ascii]
    exact ⟨rfl, rfl⟩

theorem widthLoop_pair {byte : UInt8} {rest : Bytes} {size : Nat} (plain : byte ≠ escChr)
    (pair : splitPair .big5 (byte :: rest) = some size) (left : Nat) :
    widthLoop .big5 (size + left) (byte :: rest) = 2 + widthLoop .big5 left (rest.drop (size - 1)) := by
  obtain ⟨_, _, rfl, trail, others, behind, second⟩ := splitPair_range pair
  have notEscape : trail ≠ escChr := by
    rintro rfl
    cases second
  have last : rest.drop (skipAll rest + 2 - 1) = others := by
    rw [show skipAll rest + 2 - 1 = skipAll rest + 1 by omega, ← List.drop_drop, behind]
    rfl
  rw [show skipAll rest + 2 + left = 1 + (skipAll rest + (1 + left)) by omega,
    widthLoop_byte plain, widthLoop_skipAll, behind, widthLoop_byte notEscape, last]
  omega

theorem utf8_printable {ucsWidth : Int → Nat} {byte : UInt8} (rest : Bytes)
    (printable : isPrintable byte = true) :
    mbBytes (.utf8 ucsWidth) (byte :: rest) = 1 ∧ mbWidth (.utf8 ucsWidth) (byte :: rest) = 1 := by
  obtain ⟨low, high, notDelete, _⟩ := (byte_classes byte).1 printable
  have ready : utf8IsReady utf8Start = false := rfl
  have none : ¬ utf8Start.need > 0 := by decide
  have bytes : mbBytes (.utf8 ucsWidth) (byte :: rest) =
      ((firstReady utf8AddByte utf8Pending utf8Start (byte :: rest)).map Utf8Ctx.len).getD 1 := rfl
  constructor
  · rw [bytes, firstReady_cons]
    simp only [utf8AddByte, ready, Bool.false_eq_true, if_false, if_neg none, if_pos low]
    rfl
  · rw [mbWidth, if_pos low, if_pos ⟨high, notDelete⟩]

theorem isControl_take {byte : UInt8} (plain : isControlByte byte = false) (rest : Bytes)
    (size width : Nat) : Piece.isControl { bytes := (byte :: rest).take size, width } = false := by
  match size, rest with
  | 0, _ => rfl
  | 1, _ => exact plain
  | _ + 2, [] => exact plain
  | _ + 2, _ :: _ => rfl

theorem counted_plain (build : Build) {byte : UInt8} (plain : isControlByte byte = false)
    (rest : Bytes) (size width : Nat) :
    Piece.counted build { bytes := (byte :: rest).take size, width } = width := by
  cases build with
  | big5 =>
      rw [Piece.counted, isControl_take plain]
      rfl
  | utf8 ucsWidth => rfl

theorem control_iff {byte : UInt8} (plain : byte ≠ escChr) (notPrintable : ¬ isPrintable byte = true) :
    isControlByte byte = true ↔ byte < 0x80 :=
  (byte_classes byte).2.2.2 plain notPrintable

theorem printable_plain {byte : UInt8} (printable : isPrintable byte = true) :
    isControlByte byte = false :=
  ((byte_classes byte).1 printable).2.2.2

theorem lead_plain {byte : UInt8} (lead : isLead byte = true) : isControlByte byte = false :=
  (byte_classes byte).2.1 lead

theorem widthLoop_first (build : Build) (left : Nat) (byte : UInt8) (rest : Bytes) :
    let first := firstPiece build (byte :: rest)
    widthLoop build (first.1 + left) (byte :: rest) =
      Piece.counted build { bytes := (byte :: rest).take first.1, width := first.2 } +
        widthLoop build left (rest.drop (first.1 - 1)) := by
  intro first
  by_cases escape : byte = escChr
  · subst escape
    have piece : first = (skipControlSequence rest, 0) := by
      simp only [first, firstPiece, if_true]
    rw [piece, widthLoop_escape, counted_plain build (by decide), Nat.zero_add]
  · cases build with
    | utf8 ucsWidth =>
        have size := @mbBytes_range (.utf8 ucsWidth) _ (List.cons_ne_nil byte rest)
        have piece : first = (mbBytes (.utf8 ucsWidth) (byte :: rest),
            mbWidth (.utf8 ucsWidth) (byte :: rest)) := by
          simp only [first, firstPiece, if_neg escape]
          split
          · rename_i printable
            rw [(utf8_printable rest printable).1, (utf8_printable rest printable).2]
          · rfl
        rw [piece, widthLoop, if_neg (by omega), if_neg escape]
        dsimp only
        rw [if_neg (by omega), Nat.add_sub_cancel_left]
        rfl
    | big5 =>
        by_cases printable : isPrintable byte = true
        · have piece : first = (1, 1) := by
            simp only [first, firstPiece, if_neg escape, if_pos printable]
          rw [piece, widthLoop_byte escape, counted_plain .big5 (printable_plain printable)]
          rfl
        · cases pair : splitPair .big5 (byte :: rest) with
          | some size =>
              have piece : first = (size, 2) := by
                simp only [first, firstPiece, if_neg escape, if_neg printable, pair]
              have lead := (splitPair_range pair).2.1
              rw [piece, widthLoop_pair escape pair, counted_plain .big5 (lead_plain lead)]
          | none =>
              have single := big5_alone printable pair
              have piece : first = (1, if byte < 0x80 then 0 else 1) := by
                simp only [first, firstPiece, if_neg escape, if_neg printable, pair, single.1,
                  single.2]
              have control := control_iff escape printable
              rw [piece, widthLoop_byte escape]
              congr 1
              by_cases ascii : byte < 0x80
              · rw [Piece.counted]
                exact (if_pos (control.2 ascii)).symm
              · rw [counted_plain .big5 (by simpa using mt control.1 ascii), if_neg ascii]

theorem widthLoop_take (build : Build) (s : Bytes) (taken : Nat) :
    widthLoop build (((pieces build s).take taken).flatMap Piece.bytes).length s =
      (((pieces build s).take taken).map (Piece.counted build)).sum := by
  induction s using pieces.induct build generalizing taken with
  | case1 => rw [pieces, List.take_nil, widthLoop]; rfl
  | case2 byte rest first ih =>
      cases taken with
      | zero => exact widthLoop_zero build _
      | succ taken =>
          have range := (firstPiece_range build byte rest).2
          rw [pieces, List.take_succ_cons, List.flatMap_cons, List.length_append, List.length_take,
            Nat.min_eq_left range, widthLoop_first, ih, List.map_cons, List.sum_cons]

/-! ### Offsets and columns -/

theorem bytes_take (build : Build) (s : Bytes) (taken : Nat) :
    ∃ behind, s = ((pieces build s).take taken).flatMap Piece.bytes ++ behind := by
  refine ⟨((pieces build s).drop taken).flatMap Piece.bytes, ?_⟩
  rw [← List.flatMap_append, List.take_append_drop, pieces_bytes]

theorem columns_length (pieces : List Piece) :
    (pieces.flatMap Piece.columns).length = (pieces.map Piece.width).sum := by
  rw [List.length_flatMap]
  congr 1
  exact List.map_congr_left fun piece _ => List.length_replicate

theorem streamWidthN_eq (build : Build) (s : Bytes) (len : Nat) :
    streamWidthN build s len = widthLoop build len s := by
  rw [streamWidthN]
  split
  · rw [show len = 0 by omega, widthLoop_zero]
  · rfl

theorem first_le_counted (build : Build) (byte : UInt8) (rest : Bytes) :
    let first := firstPiece build (byte :: rest)
    first.2 ≤ Piece.counted build { bytes := (byte :: rest).take first.1, width := first.2 } := by
  intro first
  cases control : isControlByte byte with
  | false => rw [counted_plain build control]
  | true =>
      cases build with
      | utf8 ucsWidth => exact Nat.le_refl _
      | big5 =>
          have escape : byte ≠ escChr := by
            rintro rfl
            cases control
          have printable : ¬ isPrintable byte = true := by
            intro printable
            rw [printable_plain printable] at control
            cases control
          cases pair : splitPair .big5 (byte :: rest) with
          | some size =>
              rw [lead_plain (splitPair_range pair).2.1] at control
              cases control
          | none =>
              have single := big5_alone printable pair
              have ascii := (control_iff escape printable).1 control
              have piece : first = (1, 0) := by
                simp only [first, firstPiece, if_neg escape, if_neg printable, pair, single.1,
                  single.2, if_pos ascii]
              rw [piece]
              exact Nat.zero_le _

theorem sum_le_counted (build : Build) (s : Bytes) :
    ((pieces build s).map Piece.width).sum ≤ ((pieces build s).map (Piece.counted build)).sum := by
  induction s using pieces.induct build with
  | case1 => rw [pieces]; exact Nat.le_refl _
  | case2 byte rest first ih =>
      rw [pieces, List.map_cons, List.map_cons, List.sum_cons, List.sum_cons]
      exact Nat.add_le_add (first_le_counted build byte rest) ih

theorem streamWidth_fits (build : Build) (s : Bytes) :
    ((pieces build s).flatMap Piece.columns).length ≤ streamWidth build s := by
  have whole := widthLoop_take build s (pieces build s).length
  rw [List.take_length, pieces_bytes] at whole
  rw [streamWidth]
  split
  · rename_i empty
    rw [empty, pieces]
    exact Nat.le_refl _
  · rw [streamWidthN_eq, whole, columns_length]
    exact sum_le_counted build s

/-- The offset for a number of columns is the end of pieces that fit, and no further piece does.
The columns up to it are those of the count, unless a Big5 stream has a control character before
it.  All of a stream that has columns is within its width. -/
theorem column_offset (build : Build) (s : Bytes) (count : Nat) :
    let found := streamColOffset build count s
    (∃ taken, let front := (pieces build s).take taken
      front.flatMap Piece.bytes = s.take found.1 ∧ found.1 ≤ s.length ∧ found.2 ≤ count ∧
        ((build = .big5 → ∀ piece ∈ front, piece.isControl = false) →
          streamWidthN build s found.1 = found.2) ∧
        (0 < count → ∀ next ∈ (pieces build s)[taken]?, count < found.2 + next.width)) ∧
      (0 < streamWidth build s →
        (streamColOffset build (streamWidth build s) s).1 = s.length) := by
  intro found
  constructor
  · by_cases none : count = 0
    · have start : found = (0, 0) := by simp only [found, streamColOffset, none]; rfl
      refine ⟨0, ?_⟩
      rw [start]
      refine ⟨by simp, Nat.zero_le _, Nat.zero_le _, fun _ => (streamWidthN_eq build s 0).trans (widthLoop_zero build s), ?_⟩
      intro more
      omega
    · have looped : found = colLoop build count 0 s := by
        simp only [found, streamColOffset, if_neg (show ¬ (count : Int) ≤ 0 by omega)]
        rfl
      rw [colLoop_fitting build count 0 s (Nat.zero_le _), Nat.sub_zero, Nat.zero_add] at looped
      have front := fitting_eq_take Piece.columns count (pieces build s)
      refine ⟨(fitting Piece.columns count (pieces build s)).length, ?_⟩
      dsimp only
      rw [← front, looped]
      obtain ⟨behind, whole⟩ := bytes_take build s
        (fitting Piece.columns count (pieces build s)).length
      rw [← front] at whole
      have lengths := congrArg List.length whole
      have bytes := congrArg (List.take ((fitting Piece.columns count (pieces build s)).flatMap
        Piece.bytes).length) whole
      have counted := widthLoop_take build s (fitting Piece.columns count (pieces build s)).length
      rw [List.length_append] at lengths
      rw [List.take_left] at bytes
      rw [← front] at counted
      refine ⟨bytes.symm, by omega, fit_length_le Piece.columns count _, ?_, ?_⟩
      · intro plain
        rw [streamWidthN_eq, counted, fit, columns_length]
        congr 1
        refine List.map_congr_left fun piece member => ?_
        cases build with
        | big5 => rw [Piece.counted, if_neg (by rw [plain rfl piece member]; simp)]
        | utf8 ucsWidth => rfl
      · intro _
        exact fun next member => by
          have room := fitting_next Piece.columns count (pieces build s) next member
          rwa [show (Piece.columns next).length = next.width from List.length_replicate] at room
  · intro more
    rw [streamColOffset, if_neg (by omega), Int.toNat_natCast, colLoop_fitting _ _ _ _ (Nat.zero_le _),
      Nat.sub_zero, fitting_of_length_le Piece.columns (streamWidth_fits build s), pieces_bytes]

/-- A control character has no column, and is not passed when there is room for none.  In a Big5
stream it is counted as one. -/
theorem control_characters_differ :
    streamColOffset (.utf8 fun _ => 1) 0 [0x01] = (0, 0) ∧
      pieces (.utf8 fun _ => 1) [0x01] = [{ bytes := [0x01], width := 0 }] ∧
      streamWidth (.utf8 fun _ => 1) [0x01] = 0 ∧
      streamColOffset .big5 1 [0x01, 0x61] = (2, 1) ∧
      streamWidthN .big5 [0x01, 0x61] 2 = 2 := by
  decide +kernel

end Pttbbs.Common.StreamWidth
