/-
Characters of two colours in the text that the decoder writes.
-/

import Pttbbs.Big5uao.SgrPieces

namespace Pttbbs.Big5uao

open Pttbbs.Lib

/-! ### Texts and their pieces -/

def stripSGR : Bytes → Bytes
  | [] => []
  | first :: rest =>
      let sgrLen := parseSGR (first :: rest)
      if 0 < sgrLen then stripSGR (rest.drop (sgrLen - 1)) else first :: stripSGR rest
termination_by text => text.length
decreasing_by
  · rw [List.length_drop, List.length_cons]
    omega
  · exact Nat.lt_succ_self _

def utf8Pieces : Bytes → List Piece
  | [] => []
  | first :: rest =>
      let sgrLen := parseSGR (first :: rest)
      if 0 < sgrLen then
        .sgr (((first :: rest).take (sgrLen - 1)).drop 2) :: utf8Pieces (rest.drop (sgrLen - 1))
      else if first < 0x80 then .ascii first :: utf8Pieces rest
      else
        let size := (decodeRune (first :: rest)).2
        .rune ((first :: rest).take size) :: utf8Pieces (rest.drop (size - 1))
termination_by text => text.length
decreasing_by
  · rw [List.length_drop, List.length_cons]
    omega
  · exact Nat.lt_succ_self _
  · rw [List.length_drop, List.length_cons]
    omega

/-! ### Drawing -/

/-- The attributes in effect, and those that the parameter 66 has kept for the next half. -/
structure Pen (α : Type) where
  attr : α
  half : Option α

inductive Cell (α : Type) where
  | narrow (byte : UInt8) (attr : α)
  | wide (left right : α)

def numbers (params : Bytes) : List Nat := (splitOn semicolon params).map digitsValue

section Pens

variable {α : Type} (apply : α → Nat → α)

def Pen.number (pen : Pen α) (number : Nat) : Pen α :=
  if number = 66 then { pen with half := some pen.attr }
  else { pen with attr := apply pen.attr number }

def Pen.sgr (pen : Pen α) (params : Bytes) : Pen α :=
  (numbers params).foldl (Pen.number apply) pen

def cells (pen : Pen α) : List Piece → List (Cell α)
  | [] => []
  | .sgr params :: pieces => cells (pen.sgr apply params) pieces
  | .ascii byte :: pieces =>
      if 0x20 ≤ byte then
        .narrow byte (pen.half.getD pen.attr) :: cells { pen with half := none } pieces
      else cells pen pieces
  | .pair _ mids _ :: pieces =>
      let inner := mids.foldl (Pen.sgr apply) pen
      .wide (inner.half.getD pen.attr) inner.attr :: cells { inner with half := none } pieces
  | .rune _ :: pieces =>
      .wide (pen.half.getD pen.attr) pen.attr :: cells { pen with half := none } pieces
  | .lone _ mids :: pieces => cells (mids.foldl (Pen.sgr apply) pen) pieces

/-- No character with sequences inside begins while 66 keeps other attributes than those in effect,
unless one of its sequences has 66 again. -/
def HalvesKept (pen : Pen α) : List Piece → Prop
  | [] => True
  | .sgr params :: pieces => HalvesKept (pen.sgr apply params) pieces
  | .ascii byte :: pieces =>
      HalvesKept (if 0x20 ≤ byte then { pen with half := none } else pen) pieces
  | .pair _ mids _ :: pieces =>
      (mids = [] ∨ 66 ∈ mids.flatMap numbers ∨ pen.half.getD pen.attr = pen.attr) ∧
        HalvesKept { mids.foldl (Pen.sgr apply) pen with half := none } pieces
  | .rune _ :: pieces => HalvesKept { pen with half := none } pieces
  | .lone _ mids :: pieces => HalvesKept (mids.foldl (Pen.sgr apply) pen) pieces

end Pens

def flush (run : Bytes) : List Bytes := if run = [] then [] else [run]

/-- The runs of ASCII characters with nothing in between, where all other sequences are. -/
def asciiRuns (run : Bytes) : List Piece → List Bytes
  | [] => flush run
  | .ascii byte :: pieces => asciiRuns (run ++ [byte]) pieces
  | _ :: pieces => flush run ++ asciiRuns [] pieces

/-! ### The property and the condition -/

variable (b2uTable : Nat → UInt16)

structure Survives {α : Type} (apply : α → Nat → α) (start : α) (buf : Bytes) : Prop where
  valid : validUtf8 (decodeSGR66 b2uTable buf) = true
  text : stripSGR (decodeSGR66 b2uTable buf) = decode b2uTable (stripSGR buf)
  parameters : cells apply { attr := start, half := none } (utf8Pieces (decodeSGR66 b2uTable buf)) =
    cells apply { attr := start, half := none } (big5Pieces buf)
  escapes : asciiRuns [] (utf8Pieces (decodeSGR66 b2uTable buf)) = asciiRuns [] (big5Pieces buf)

def Piece.Whole : Piece → Prop
  | .pair _ _ lo => 0x40 ≤ lo
  | .lone _ _ => False
  | _ => True

/-! ### Attributes -/

section Attributes

variable {α : Type} {apply : α → Nat → α}

theorem numbers_append (left right : Bytes) :
    numbers (left ++ semicolon :: right) = numbers left ++ numbers right := by
  rw [numbers, splitOn_append_cons, List.map_append]
  rfl

theorem numbers_flatMap (params : Bytes) (mids : List Bytes) :
    numbers (params ++ mids.flatMap fun mid => semicolon :: mid) =
      numbers params ++ mids.flatMap numbers := by
  induction mids generalizing params with
  | nil => rw [List.flatMap_nil, List.flatMap_nil, List.append_nil, List.append_nil]
  | cons mid mids ih =>
      have shape : params ++ (mid :: mids).flatMap (fun mid => semicolon :: mid) =
          (params ++ semicolon :: mid) ++ mids.flatMap fun mid => semicolon :: mid := by
        simp
      rw [shape, ih, numbers_append, List.flatMap_cons, List.append_assoc]

theorem numbers_joined (pending : Option Bytes) (mids : List Bytes) :
    numbers (joined pending mids) =
      (pending.map numbers).getD [] ++ 66 :: mids.flatMap numbers := by
  have half : numbers [0x36, 0x36] = [66] := by decide
  cases pending with
  | none =>
      rw [joined, numbers_flatMap, half]
      rfl
  | some params =>
      have shape : params ++ [semicolon, 0x36, 0x36] = params ++ semicolon :: [0x36, 0x36] := rfl
      rw [joined, shape, numbers_flatMap, numbers_append, half, List.append_assoc]
      rfl

theorem foldl_sgr (pen : Pen α) (mids : List Bytes) :
    mids.foldl (Pen.sgr apply) pen = (mids.flatMap numbers).foldl (Pen.number apply) pen := by
  rw [List.foldl_flatMap]
  rfl

theorem foldl_number (given : List Nat) (pen : Pen α) (other : Option α) :
    given.foldl (Pen.number apply) { pen with half := other } =
      { attr := (given.foldl (Pen.number apply) pen).attr
        half :=
          if 66 ∈ given then (given.foldl (Pen.number apply) pen).half else other } := by
  induction given generalizing pen other with
  | nil => rfl
  | cons number given ih =>
      rw [List.foldl_cons, List.foldl_cons]
      by_cases half : number = 66
      · rw [Pen.number, Pen.number, if_pos half, if_pos half, if_pos (by simp [half])]
      · have kept := ih { pen with attr := apply pen.attr number } other
        have absent : 66 ∈ number :: given ↔ 66 ∈ given := by simp [Ne.symm half]
        rw [Pen.number, Pen.number, if_neg half, if_neg half]
        simp only [absent]
        exact kept

theorem foldl_number_half (given : List Nat) (pen : Pen α) (absent : 66 ∉ given) :
    (given.foldl (Pen.number apply) pen).half = pen.half := by
  have kept := congrArg Pen.half (@foldl_number α apply given pen pen.half)
  rwa [if_neg absent] at kept

theorem foldl_number_some (given : List Nat) (pen : Pen α) (present : 66 ∈ given) :
    ∃ attr, (given.foldl (Pen.number apply) pen).half = some attr := by
  induction given generalizing pen with
  | nil => cases present
  | cons number given ih =>
      rw [List.foldl_cons]
      by_cases later : 66 ∈ given
      · exact ih _ later
      · have half : number = 66 := ((List.mem_cons.1 present).resolve_right later).symm
        rw [foldl_number_half given _ later, Pen.number, if_pos half]
        exact ⟨_, rfl⟩

def Pen.behind (apply : α → Nat → α) (pen : Pen α) (pending : Option Bytes) : Pen α :=
  (pending.map (pen.sgr apply)).getD pen

theorem cells_pending (pen : Pen α) (pending : Option Bytes) (pieces : List Piece) :
    cells apply pen (pendingPieces pending ++ pieces) =
      cells apply (pen.behind apply pending) pieces := by
  cases pending with
  | none => rfl
  | some params => rfl

theorem sgr_joined (pen : Pen α) (pending : Option Bytes) (mids : List Bytes) :
    pen.sgr apply (joined pending mids) =
      (mids.flatMap numbers).foldl (Pen.number apply)
        { pen.behind apply pending with half := some (pen.behind apply pending).attr } := by
  rw [Pen.sgr, numbers_joined, List.foldl_append, List.foldl_cons]
  cases pending with
  | none => rfl
  | some params => rfl

theorem halves_iff (pen : Pen α) (given : List Nat) :
    (given.foldl (Pen.number apply) { pen with half := some pen.attr }).half.getD
        (given.foldl (Pen.number apply) { pen with half := some pen.attr }).attr =
      (given.foldl (Pen.number apply) pen).half.getD pen.attr ↔
    (66 ∈ given ∨ pen.half.getD pen.attr = pen.attr) := by
  rw [foldl_number]
  dsimp only
  by_cases again : 66 ∈ given
  · obtain ⟨attr, kept⟩ := @foldl_number_some α apply given pen again
    rw [if_pos again, kept]
    simp [again]
  · rw [if_neg again, foldl_number_half given pen again, Option.getD_some]
    simp [again, eq_comm]

theorem cells_output_iff (pieces : List Piece) (pen : Pen α) (pending : Option Bytes) :
    cells apply pen (output b2uTable pending pieces) =
        cells apply (pen.behind apply pending) pieces ↔
      HalvesKept apply (pen.behind apply pending) pieces := by
  induction pieces generalizing pen pending with
  | nil =>
      have ends := @cells_pending α apply pen pending []
      rw [List.append_nil] at ends
      rw [output, ends]
      exact iff_of_true rfl trivial
  | cons piece pieces ih =>
      cases piece with
      | sgr params =>
          rw [output, cells_pending, cells, HalvesKept]
          exact ih _ (some params)
      | ascii byte =>
          rw [output, cells_pending, cells, cells, HalvesKept]
          split
          · rw [List.cons.injEq, eq_self_iff_true, true_and]
            exact ih _ none
          · exact ih _ none
      | pair hi mids lo =>
          rw [output, HalvesKept]
          by_cases empty : mids = []
          · subst empty
            rw [if_pos rfl, cells_pending, cells, cells, List.foldl_nil, List.cons.injEq,
              eq_self_iff_true, true_and]
            simp only [true_or, true_and]
            exact ih _ none
          · have inner := @halves_iff α apply (pen.behind apply pending)
              (mids.flatMap numbers)
            have tail := ih { mids.foldl (Pen.sgr apply) (pen.behind apply pending) with
              half := none } none
            have attrs := congrArg Pen.attr (@foldl_number α apply (mids.flatMap numbers)
              (pen.behind apply pending) (some (pen.behind apply pending).attr))
            rw [foldl_sgr] at tail ⊢
            rw [if_neg empty, List.singleton_append, cells, cells, cells, sgr_joined, foldl_sgr,
              List.cons.injEq, Cell.wide.injEq]
            dsimp only at attrs ⊢
            rw [inner, attrs, eq_self_iff_true, and_true, or_iff_right empty]
            exact and_congr_right fun _ => tail
      | rune bytes =>
          rw [output, cells_pending, cells, cells, HalvesKept, List.cons.injEq, eq_self_iff_true,
            true_and]
          exact ih _ none
      | lone hi mids =>
          rw [output, cells_pending, cells, cells, HalvesKept]
          exact ih _ none

end Attributes

theorem asciiRuns_output (pieces : List Piece) (run : Bytes) (pending : Option Bytes) :
    asciiRuns run (output b2uTable pending pieces) =
      if pending = none then asciiRuns run pieces else flush run ++ asciiRuns [] pieces := by
  have empty : flush [] = [] := rfl
  induction pieces generalizing run pending with
  | nil => cases pending <;> simp [output, pendingPieces, asciiRuns, empty]
  | cons piece pieces ih =>
      cases piece with
      | pair hi mids lo =>
          by_cases inside : mids = []
          · cases pending <;> simp [output, pendingPieces, asciiRuns, empty, inside, ih]
          · cases pending <;> simp [output, asciiRuns, empty, inside, ih]
      | _ => cases pending <;> simp [output, pendingPieces, asciiRuns, empty, ih]

/-! ### Reading the output -/

variable {b2uTable}

theorem encodedRune_wide {r : Nat} (wide : 0x80 ≤ r) :
    wellFormed (encodedRune r) = true ∧ 1 < (encodedRune r).length := by
  have long : ∀ value, 0x80 ≤ value → 1 < (encodeUtf8 value).length := by
    intro value above
    unfold encodeUtf8
    rw [if_neg (by omega)]
    split
    · simp
    · split <;> simp
  unfold encodedRune
  split
  · rename_i scalar
    exact ⟨(wellFormed_encodeUtf8 scalar).1, long r wide⟩
  · exact ⟨(wellFormed_encodeUtf8 (by decide)).1, long runeError (by decide)⟩

def reach (text : Bytes) : Bytes := text.takeWhile fun byte => byte ≠ escape ∧ byte < 0x80

theorem reach_cons_of_stop {first : UInt8} (stops : first = escape ∨ 0x80 ≤ first.toNat)
    (rest : Bytes) : reach (first :: rest) = [] := by
  rw [reach, List.takeWhile_cons_of_neg]
  simp only [decide_eq_true_eq, UInt8.lt_iff_toNat_lt]
  rintro ⟨other, low⟩
  rcases stops with same | high
  · exact other same
  · exact absurd low (Nat.not_lt.2 high)

theorem parameter_reaches {byte : UInt8} (parameter : isParameter byte = true) :
    byte ≠ escape ∧ byte < 0x80 := by
  rw [isParameter, Bool.or_eq_true, isDigitByte, Bool.and_eq_true, decide_eq_true_eq,
    decide_eq_true_eq, decide_eq_true_eq] at parameter
  rcases parameter with ⟨bottom, top⟩ | rfl
  · have below : byte.toNat ≤ 57 := UInt8.le_iff_toNat_le.1 top
    refine ⟨?_, UInt8.lt_iff_toNat_lt.2 (show byte.toNat < 128 by omega)⟩
    rintro rfl
    exact absurd bottom (by decide)
  · decide

theorem parseSGR_reach (first : UInt8) (text : Bytes) :
    0 < parseSGR (first :: text) ↔ 0 < parseSGR (first :: reach text) := by
  constructor
  · intro found
    obtain ⟨params, rest, all, whole⟩ := eq_sgr_of_parseSGR found
    obtain ⟨rfl, rfl⟩ := List.cons.inj whole
    have reaches : ∀ byte ∈ bracket :: (params ++ [graphics]),
        (decide (byte ≠ escape ∧ byte < 0x80)) = true := by
      intro byte member
      rw [decide_eq_true_eq]
      rcases List.mem_cons.1 member with rfl | member
      · decide
      rcases List.mem_append.1 member with inside | last
      · exact parameter_reaches (all byte inside)
      · rw [List.mem_singleton.1 last]
        decide
    have same : reach ((bracket :: (params ++ [graphics])).append rest) =
        bracket :: (params ++ [graphics]) ++ reach rest := List.takeWhile_append_of_pos reaches
    rw [same]
    change 0 < parseSGR (sgr params ++ reach rest)
    rw [parseSGR_sgr all]
    omega
  · intro found
    obtain ⟨params, rest, all, whole⟩ := eq_sgr_of_parseSGR found
    obtain ⟨behind, parts⟩ := List.takeWhile_prefix (l := text)
      fun byte => decide (byte ≠ escape ∧ byte < 0x80)
    change reach text ++ behind = text at parts
    rw [← parts, ← List.cons_append, whole, List.append_assoc, parseSGR_sgr all]
    omega

theorem output_some (params : Bytes) (pieces : List Piece) :
    ∃ given others, output b2uTable (some params) pieces = .sgr given :: others := by
  cases pieces with
  | nil => exact ⟨params, [], rfl⟩
  | cons piece pieces =>
      cases piece with
      | pair hi mids lo =>
          rw [output]
          split
          · exact ⟨params, _, rfl⟩
          · exact ⟨_, _, rfl⟩
      | _ => exact ⟨params, _, rfl⟩

theorem charOf_spec (table : WideTable b2uTable) {hi : UInt8} (high : 0x80 ≤ hi.toNat)
    (lo : UInt8) : wellFormed (charOf b2uTable hi lo) = true ∧ 1 < (charOf b2uTable hi lo).length ∧
      ∀ byte ∈ charOf b2uTable hi lo, 0x80 ≤ byte.toNat := by
  have char := encodedRune_wide (table.wide high lo)
  exact ⟨char.1, char.2, high_of_wellFormed char.1 char.2⟩

theorem reach_high {bytes : Bytes} (some : 0 < bytes.length)
    (high : ∀ byte ∈ bytes, 0x80 ≤ byte.toNat) (rest : Bytes) : reach (bytes ++ rest) = [] := by
  cases bytes with
  | nil => exact absurd some (Nat.lt_irrefl 0)
  | cons first others => exact reach_cons_of_stop (.inr (high first List.mem_cons_self)) _

theorem reach_output (table : WideTable b2uTable) {pieces : List Piece} (scanned : Scanned pieces) :
    reach (written (output b2uTable none pieces)) = reach (written pieces) := by
  induction pieces with
  | nil => rfl
  | cons piece pieces ih =>
      cases piece with
      | sgr params =>
          obtain ⟨given, others, whole⟩ := @output_some b2uTable params pieces
          have next : output b2uTable none (.sgr params :: pieces) = .sgr given :: others := whole
          rw [next, written_cons, written_cons]
          exact (reach_cons_of_stop (.inl rfl) _).trans (reach_cons_of_stop (.inl rfl) _).symm
      | ascii byte =>
          have next : output b2uTable none (.ascii byte :: pieces) =
              .ascii byte :: output b2uTable none pieces := rfl
          have behind := ih scanned.2.2
          rw [next, written_cons, written_cons, Piece.bytes, List.singleton_append,
            List.singleton_append]
          unfold reach at behind ⊢
          rw [List.takeWhile_cons, List.takeWhile_cons, behind]
      | pair hi mids lo =>
          have char := charOf_spec table scanned.1 lo
          rw [written_cons, Piece.bytes, List.cons_append, reach_cons_of_stop (.inr scanned.1),
            output]
          split
          · rw [pendingPieces, Option.map_none, Option.toList_none, List.nil_append, written_cons,
              Piece.bytes, reach_high (Nat.zero_lt_of_lt char.2.1) char.2.2]
          · rw [List.singleton_append, written_cons]
            exact reach_cons_of_stop (.inl rfl) _
      | rune bytes =>
          have next : output b2uTable none (.rune bytes :: pieces) =
              .rune bytes :: output b2uTable none pieces := rfl
          rw [next, written_cons, written_cons, Piece.bytes]
          cases bytes with
          | nil => exact ih scanned.2
          | cons first others =>
              have high := scanned.1 first List.mem_cons_self
              rw [List.cons_append, List.cons_append, reach_cons_of_stop (.inr high),
                reach_cons_of_stop (.inr high)]
      | lone hi mids =>
          have next : output b2uTable none (.lone hi mids :: pieces) =
              .lone hi mids :: output b2uTable none pieces := rfl
          rw [next, written_cons, written_cons, Piece.bytes, List.cons_append, List.cons_append,
            reach_cons_of_stop (.inr scanned.1), reach_cons_of_stop (.inr scanned.1)]

theorem allParameters_joined {pending : Option Bytes} {mids : List Bytes}
    (given : ∀ params ∈ pending, AllParameters params) (all : ∀ mid ∈ mids, AllParameters mid) :
    AllParameters (joined pending mids) := by
  have digits : ∀ byte ∈ [0x36, 0x36], isParameter byte = true := by
    simp [isParameter, isDigitByte]
  have tail : AllParameters (mids.flatMap fun mid => semicolon :: mid) := by
    intro byte member
    obtain ⟨mid, inside, place⟩ := List.mem_flatMap.1 member
    rcases List.mem_cons.1 place with rfl | place
    · decide
    · exact all mid inside byte place
  cases pending with
  | none =>
      intro byte member
      rcases List.mem_append.1 member with front | behind
      · exact digits byte front
      · exact tail byte behind
  | some params =>
      intro byte member
      rcases List.mem_append.1 member with front | behind
      · rcases List.mem_append.1 front with inside | half
        · exact given params rfl byte inside
        · rcases List.mem_cons.1 half with rfl | half
          · decide
          · exact digits byte half
      · exact tail byte behind

theorem scanned_output (table : WideTable b2uTable) {pieces : List Piece} (scanned : Scanned pieces)
    {pending : Option Bytes} (given : ∀ params ∈ pending, AllParameters params) :
    Scanned (output b2uTable pending pieces) := by
  have front : ∀ {pending : Option Bytes} {others : List Piece},
      (∀ params ∈ pending, AllParameters params) → Scanned others →
        Scanned (pendingPieces pending ++ others) := by
    intro pending others given rest
    cases pending with
    | none => exact rest
    | some params => exact ⟨given params rfl, rest⟩
  have nothing : ∀ params ∈ (none : Option Bytes), AllParameters params := by simp
  induction pieces generalizing pending with
  | nil =>
      rw [output, ← List.append_nil (pendingPieces pending)]
      exact front given trivial
  | cons piece pieces ih =>
      cases piece with
      | sgr params =>
          refine front given (ih scanned.2 ?_)
          rintro _ ⟨⟩
          exact scanned.1
      | ascii byte =>
          obtain ⟨low, none, rest⟩ := scanned
          refine front given ⟨low, Nat.eq_zero_of_not_pos fun found => ?_, ih rest nothing⟩
          rw [parseSGR_reach, reach_output table rest, ← parseSGR_reach] at found
          omega
      | pair hi mids lo =>
          obtain ⟨high, all, _, rest⟩ := scanned
          have behind : Scanned (.rune (charOf b2uTable hi lo) :: output b2uTable none pieces) :=
            ⟨(charOf_spec table high lo).2.2, ih rest nothing⟩
          rw [output]
          split
          · exact front given behind
          · exact ⟨allParameters_joined given all, behind⟩
      | rune bytes => exact front given ⟨scanned.1, ih scanned.2 nothing⟩
      | lone hi mids =>
          obtain ⟨high, all, rfl⟩ := scanned
          exact front given ⟨high, all, rfl⟩

/-! ### The parts of the property -/

theorem stripSGR_sgr {params : Bytes} (all : AllParameters params) (rest : Bytes) :
    stripSGR (sgr params ++ rest) = stripSGR rest := by
  have length := parseSGR_sgr all rest
  have whole : escape :: (bracket :: (params ++ [graphics]) ++ rest) = sgr params ++ rest := rfl
  obtain ⟨behind, _⟩ := drop_sgr whole
  rw [← whole] at length ⊢
  rw [stripSGR, if_pos (by omega), length, show params.length + 3 - 1 = params.length + 2 by omega,
    behind]

theorem stripSGR_other {first : UInt8} {rest : Bytes} (none : parseSGR (first :: rest) = 0) :
    stripSGR (first :: rest) = first :: stripSGR rest := by
  rw [stripSGR, if_neg (by omega)]

theorem stripSGR_sgrs {mids : List Bytes} (all : ∀ mid ∈ mids, AllParameters mid) (rest : Bytes) :
    stripSGR (mids.flatMap sgr ++ rest) = stripSGR rest := by
  induction mids with
  | nil => rfl
  | cons mid mids ih =>
      rw [List.forall_mem_cons] at all
      rw [List.flatMap_cons, List.append_assoc, stripSGR_sgr all.1, ih all.2]

theorem stripSGR_high {bytes : Bytes} (high : ∀ byte ∈ bytes, 0x80 ≤ byte.toNat) (rest : Bytes) :
    stripSGR (bytes ++ rest) = bytes ++ stripSGR rest := by
  induction bytes with
  | nil => rfl
  | cons first others ih =>
      rw [List.forall_mem_cons] at high
      rw [List.cons_append, stripSGR_other (parseSGR_high high.1 _), ih high.2, List.cons_append]

theorem stripSGR_written {pieces : List Piece} (scanned : Scanned pieces) :
    stripSGR (written pieces) = pieces.flatMap Piece.plain := by
  induction pieces with
  | nil =>
      change stripSGR [] = []
      rw [stripSGR]
  | cons piece pieces ih =>
      rw [written_cons, List.flatMap_cons]
      cases piece with
      | sgr params =>
          rw [Piece.bytes, stripSGR_sgr scanned.1, ih scanned.2]
          rfl
      | ascii byte =>
          rw [Piece.bytes, List.singleton_append, stripSGR_other scanned.2.1, ih scanned.2.2]
          rfl
      | pair hi mids lo =>
          obtain ⟨high, all, none, rest⟩ := scanned
          rw [Piece.bytes, List.cons_append, stripSGR_other (parseSGR_high high _),
            List.append_assoc, stripSGR_sgrs all, List.singleton_append, stripSGR_other none,
            ih rest]
          rfl
      | rune bytes =>
          rw [Piece.bytes, stripSGR_high scanned.1, ih scanned.2]
          rfl
      | lone hi mids =>
          obtain ⟨high, all, rfl⟩ := scanned
          rw [Piece.bytes, List.cons_append, stripSGR_other (parseSGR_high high _),
            stripSGR_sgrs all, ih trivial]
          rfl

def shown : Piece → Bytes
  | .pair hi _ lo => charOf b2uTable hi lo
  | piece => piece.plain

theorem plain_output (pieces : List Piece) (pending : Option Bytes) :
    (output b2uTable pending pieces).flatMap Piece.plain =
      pieces.flatMap (@shown b2uTable) := by
  have front : (pendingPieces pending).flatMap Piece.plain = [] := by
    cases pending <;> rfl
  have empty : (pendingPieces none).flatMap Piece.plain = [] := rfl
  induction pieces generalizing pending with
  | nil => exact front
  | cons piece pieces ih =>
      rw [List.flatMap_cons]
      cases piece with
      | sgr params =>
          rw [output, List.flatMap_append, front, ih _ (by rfl)]
          rfl
      | pair hi mids lo =>
          rw [output, List.flatMap_append, List.flatMap_cons, ih _ empty]
          split
          · rw [front]
            rfl
          · rfl
      | _ =>
          rw [output, List.flatMap_append, List.flatMap_cons, ih _ empty, front]
          rfl

theorem text_iff (table : WideTable b2uTable) {pieces : List Piece} (scanned : Scanned pieces)
    (big5 : ∀ bytes, .rune bytes ∉ pieces) :
    pieces.flatMap (@shown b2uTable) = decode b2uTable (pieces.flatMap Piece.plain) ↔
      ∀ piece ∈ pieces, piece.Whole := by
  induction pieces with
  | nil =>
      refine iff_of_true ?_ fun _ member => absurd member List.not_mem_nil
      change [] = decode b2uTable []
      rw [decode]
  | cons piece pieces ih =>
      have others : ∀ bytes, .rune bytes ∉ pieces := fun bytes member =>
        big5 bytes (List.mem_cons_of_mem _ member)
      rw [List.flatMap_cons, List.flatMap_cons, List.forall_mem_cons]
      cases piece with
      | sgr params =>
          change pieces.flatMap _ = decode b2uTable (pieces.flatMap _) ↔ True ∧ _
          rw [ih scanned.2 others, true_and]
      | ascii byte =>
          have step : decode b2uTable (byte :: pieces.flatMap Piece.plain) =
              byte :: decode b2uTable (pieces.flatMap Piece.plain) := by
            rw [decode.eq_def]
            exact if_pos (UInt8.lt_iff_toNat_lt.2 scanned.1)
          change byte :: pieces.flatMap _ = decode b2uTable (byte :: pieces.flatMap _) ↔ True ∧ _
          rw [step, List.cons.injEq, eq_self_iff_true, true_and, ih scanned.2.2 others, true_and]
      | pair hi mids lo =>
          obtain ⟨high, _, _, rest⟩ := scanned
          have wide : ¬ hi < 0x80 := fun less => Nat.not_lt.2 high (UInt8.lt_iff_toNat_lt.1 less)
          have char := charOf_spec table high lo
          change charOf b2uTable hi lo ++ pieces.flatMap _ =
            decode b2uTable (hi :: lo :: pieces.flatMap _) ↔ 0x40 ≤ lo ∧ _
          rw [decode.eq_def]
          dsimp only
          rw [if_neg wide]
          obtain ⟨first, tail, whole⟩ := List.exists_cons_of_ne_nil
            (List.ne_nil_of_length_pos (Nat.zero_lt_of_lt char.2.1))
          by_cases good : 0x40 ≤ lo
          · have some : lo ≠ 0 := by
              rintro rfl
              exact absurd good (by decide)
            rw [if_neg some, if_pos good, show encodedRune (b2uTable (codeOf hi lo)).toNat =
              charOf b2uTable hi lo from rfl, List.append_cancel_left_eq, ih rest others,
              and_iff_right good]
          · refine iff_of_false (fun same => ?_) fun both => good both.1
            have above := char.2.2 first (by rw [whole]; exact List.mem_cons_self)
            rw [whole, List.cons_append] at same
            split at same
            · cases same
            · rw [(List.cons.inj same).1] at above
              exact absurd above (by decide)
      | rune bytes => exact absurd List.mem_cons_self (big5 bytes)
      | lone hi mids =>
          obtain ⟨high, _, rfl⟩ := scanned
          have wide : ¬ hi < 0x80 := fun less => Nat.not_lt.2 high (UInt8.lt_iff_toNat_lt.1 less)
          refine iff_of_false (fun same => ?_) fun both => both.1
          change [hi] = decode b2uTable [hi] at same
          rw [decode.eq_def] at same
          dsimp only at same
          rw [if_neg wide] at same
          cases same

def Piece.InUtf8 : Piece → Prop
  | .rune bytes => wellFormed bytes = true ∧ 1 < bytes.length
  | .pair _ _ _ => False
  | .lone _ _ => False
  | _ => True

theorem inUtf8_output (table : WideTable b2uTable) {pieces : List Piece} (scanned : Scanned pieces)
    (big5 : ∀ bytes, .rune bytes ∉ pieces) (whole : ∀ piece ∈ pieces, piece.Whole)
    (pending : Option Bytes) : ∀ piece ∈ output b2uTable pending pieces, piece.InUtf8 := by
  have front : ∀ {pending : Option Bytes} {others : List Piece},
      (∀ piece ∈ others, piece.InUtf8) →
        ∀ piece ∈ pendingPieces pending ++ others, piece.InUtf8 := by
    intro pending others rest
    cases pending with
    | none => exact rest
    | some params => exact List.forall_mem_cons.2 ⟨trivial, rest⟩
  induction pieces generalizing pending with
  | nil =>
      have ends := @front pending [] fun _ member => absurd member List.not_mem_nil
      rwa [List.append_nil] at ends
  | cons piece pieces ih =>
      have others : ∀ bytes, .rune bytes ∉ pieces := fun bytes member =>
        big5 bytes (List.mem_cons_of_mem _ member)
      rw [List.forall_mem_cons] at whole
      cases piece with
      | sgr params => exact front (ih scanned.2 others whole.2 _)
      | ascii byte =>
          exact front (List.forall_mem_cons.2 ⟨trivial, ih scanned.2.2 others whole.2 _⟩)
      | pair hi mids lo =>
          obtain ⟨high, _, _, rest⟩ := scanned
          have char := charOf_spec table high lo
          have behind : ∀ piece ∈ .rune (charOf b2uTable hi lo) :: output b2uTable none pieces,
              piece.InUtf8 :=
            List.forall_mem_cons.2 ⟨⟨char.1, char.2.1⟩, ih rest others whole.2 none⟩
          rw [output]
          split
          · exact front behind
          · exact List.forall_mem_cons.2 ⟨trivial, behind⟩
      | rune bytes => exact absurd List.mem_cons_self (big5 bytes)
      | lone hi mids => exact absurd whole.1 id

theorem validUtf8_ascii {bytes : Bytes} (ascii : ∀ byte ∈ bytes, byte.toNat < 0x80) (rest : Bytes) :
    validUtf8 (bytes ++ rest) = validUtf8 rest := by
  induction bytes with
  | nil => rfl
  | cons first others ih =>
      rw [List.forall_mem_cons] at ascii
      have formed : wellFormed [first] = true := (inRange_iff _ _ _).2 (by omega)
      have step := validUtf8_append formed (others ++ rest)
      rw [List.cons_append, ← ih ascii.2, ← step]
      rfl

theorem validUtf8_written {pieces : List Piece} (scanned : Scanned pieces)
    (inUtf8 : ∀ piece ∈ pieces, piece.InUtf8) : validUtf8 (written pieces) = true := by
  induction pieces with
  | nil => rfl
  | cons piece pieces ih =>
      rw [List.forall_mem_cons] at inUtf8
      rw [written_cons]
      cases piece with
      | sgr params =>
          have ascii : ∀ byte ∈ sgr params, byte.toNat < 0x80 := by
            intro byte member
            rcases List.mem_cons.1 member with rfl | member
            · decide
            rcases List.mem_cons.1 member with rfl | member
            · decide
            rcases List.mem_append.1 member with inside | last
            · exact UInt8.lt_iff_toNat_lt.1 (parameter_reaches (scanned.1 byte inside)).2
            · rw [List.mem_singleton.1 last]
              decide
          rw [Piece.bytes, validUtf8_ascii ascii, ih scanned.2 inUtf8.2]
      | ascii byte =>
          rw [Piece.bytes, validUtf8_ascii (by simpa using scanned.1), ih scanned.2.2 inUtf8.2]
      | rune bytes => rw [Piece.bytes, validUtf8_append inUtf8.1.1, ih scanned.2 inUtf8.2]
      | pair hi mids lo => exact absurd inUtf8.1 id
      | lone hi mids => exact absurd inUtf8.1 id

theorem utf8Pieces_written {pieces : List Piece} (scanned : Scanned pieces)
    (inUtf8 : ∀ piece ∈ pieces, piece.InUtf8) : utf8Pieces (written pieces) = pieces := by
  induction pieces with
  | nil =>
      change utf8Pieces [] = []
      rw [utf8Pieces]
  | cons piece pieces ih =>
      rw [List.forall_mem_cons] at inUtf8
      rw [written_cons]
      cases piece with
      | sgr params =>
          have length := parseSGR_sgr scanned.1 (written pieces)
          have whole : escape :: (bracket :: (params ++ [graphics]) ++ written pieces) =
              sgr params ++ written pieces := rfl
          obtain ⟨behind, taken⟩ := drop_sgr whole
          rw [Piece.bytes, ← whole]
          rw [← whole] at length
          rw [utf8Pieces, if_pos (by omega), length,
            show params.length + 3 - 1 = params.length + 2 by omega, behind, taken,
            ih scanned.2 inUtf8.2]
      | ascii byte =>
          obtain ⟨low, none, rest⟩ := scanned
          rw [Piece.bytes, List.singleton_append, utf8Pieces, none, if_neg (Nat.lt_irrefl 0),
            if_pos (UInt8.lt_iff_toNat_lt.2 low), ih rest inUtf8.2]
      | rune bytes =>
          obtain ⟨formed, longer⟩ := inUtf8.1
          have read := decodeRune_of_wellFormed formed (written pieces)
          cases bytes with
          | nil => cases formed
          | cons first others =>
              have high := scanned.1 first List.mem_cons_self
              have wide : ¬ first < 0x80 := fun less =>
                Nat.not_lt.2 high (UInt8.lt_iff_toNat_lt.1 less)
              have taken : (first :: (others ++ written pieces)).take (others.length + 1) =
                  first :: others := by
                rw [List.take_succ_cons, List.take_left]
              rw [List.cons_append, List.length_cons] at read
              rw [Piece.bytes, List.cons_append, utf8Pieces, parseSGR_high high,
                if_neg (Nat.lt_irrefl 0), if_neg wide, read]
              dsimp only
              rw [taken, Nat.add_sub_cancel, List.drop_left, ih scanned.2 inUtf8.2]
      | pair hi mids lo => exact absurd inUtf8.1 id
      | lone hi mids => exact absurd inUtf8.1 id

/-- Decoding keeps a text exactly when every first byte has a second one, and no attributes wait for
a half that is drawn in its own. -/
theorem survives_iff (table : WideTable b2uTable) {α : Type} (apply : α → Nat → α) (start : α)
    (buf : Bytes) :
    Survives b2uTable apply start buf ↔
      (∀ piece ∈ big5Pieces buf, piece.Whole) ∧
        HalvesKept apply { attr := start, half := none } (big5Pieces buf) := by
  obtain ⟨scanned, source⟩ := big5Pieces_spec buf
  have big5 := rune_not_mem_big5Pieces buf
  have decoded : decodeSGR66 b2uTable buf = written (output b2uTable none (big5Pieces buf)) := by
    have loop := decodeLoop_written table scanned big5 [] none
    rw [source] at loop
    exact loop
  have outScanned : Scanned (output b2uTable none (big5Pieces buf)) :=
    scanned_output table scanned (by simp)
  have stripped := stripSGR_written scanned
  rw [source] at stripped
  have text : stripSGR (decodeSGR66 b2uTable buf) = decode b2uTable (stripSGR buf) ↔
      ∀ piece ∈ big5Pieces buf, piece.Whole := by
    rw [decoded, stripSGR_written outScanned, plain_output, stripped, text_iff table scanned big5]
  have halves := @cells_output_iff b2uTable α apply (big5Pieces buf)
    { attr := start, half := none } none
  have read (whole : ∀ piece ∈ big5Pieces buf, piece.Whole) :
      utf8Pieces (decodeSGR66 b2uTable buf) = output b2uTable none (big5Pieces buf) := by
    rw [decoded]
    exact utf8Pieces_written outScanned (inUtf8_output table scanned big5 whole none)
  constructor
  · intro survives
    have whole := text.1 survives.text
    have parameters := survives.parameters
    rw [read whole] at parameters
    exact ⟨whole, halves.1 parameters⟩
  · rintro ⟨whole, kept⟩
    constructor
    · rw [decoded]
      exact validUtf8_written outScanned (inUtf8_output table scanned big5 whole none)
    · exact text.2 whole
    · rw [read whole]
      exact halves.2 kept
    · rw [read whole, asciiRuns_output, if_pos rfl]

/-! ### Two texts -/

theorem wideTable_ofNat : WideTable UInt16.ofNat := by
  intro code above below
  rw [UInt16.toNat_ofNat', Nat.mod_eq_of_lt below]
  omega

/-- Red, a character whose right half is green, and a line break. -/
theorem two_colours_survive :
    Survives UInt16.ofNat (fun given number => given ++ [number]) []
      [0x1B, 0x5B, 0x33, 0x31, 0x6D, 0xA4, 0x1B, 0x5B, 0x33, 0x32, 0x6D, 0x40, 0x0A] := by
  have pieces : big5Pieces
      [0x1B, 0x5B, 0x33, 0x31, 0x6D, 0xA4, 0x1B, 0x5B, 0x33, 0x32, 0x6D, 0x40, 0x0A] =
      [.sgr [0x33, 0x31], .pair 0xA4 [[0x33, 0x32]] 0x40, .ascii 0x0A] := by
    decide +kernel
  refine (survives_iff wideTable_ofNat _ _ _).2 ?_
  rw [pieces]
  exact ⟨by simp [Piece.Whole], .inr (.inr rfl), trivial⟩

/-- A first byte at the end of a line takes the line break for its second one. -/
theorem line_break_swallowed :
    decodeSGR66 UInt16.ofNat [0xA4, 0x0A] = [0xEA, 0x90, 0x8A] ∧
      decode UInt16.ofNat (stripSGR [0xA4, 0x0A]) = [questionMark, 0x0A] ∧
      ¬ Survives UInt16.ofNat (fun given number => given ++ [number]) ([] : List Nat)
        [0xA4, 0x0A] := by
  have decoded : decodeSGR66 UInt16.ofNat [0xA4, 0x0A] = [0xEA, 0x90, 0x8A] := by decide +kernel
  have text : decode UInt16.ofNat (stripSGR [0xA4, 0x0A]) = [questionMark, 0x0A] := by
    decide +kernel
  refine ⟨decoded, text, fun survives => ?_⟩
  have same := survives.text
  rw [decoded, text] at same
  exact absurd same (by decide +kernel)

end Pttbbs.Big5uao
