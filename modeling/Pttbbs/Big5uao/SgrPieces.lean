/-
Texts as the pieces they are drawn from.

The decoder writes the pieces of its input again.  Only a sequence inside of a character moves.
-/

import Pttbbs.Big5uao.Sgr66

namespace Pttbbs.Big5uao

open Pttbbs.Lib

/-! ### Pieces -/

inductive Piece where
  | sgr (params : Bytes)
  | ascii (byte : UInt8)
  /-- a character in Big5, with the sequences between its bytes -/
  | pair (hi : UInt8) (mids : List Bytes) (lo : UInt8)
  /-- a character in UTF-8 -/
  | rune (bytes : Bytes)
  /-- a first byte with nothing but sequences behind it -/
  | lone (hi : UInt8) (mids : List Bytes)
deriving DecidableEq, Repr

def Piece.bytes : Piece → Bytes
  | .sgr params => Big5uao.sgr params
  | .ascii byte => [byte]
  | .pair hi mids lo => hi :: (mids.flatMap Big5uao.sgr ++ [lo])
  | .rune bytes => bytes
  | .lone hi mids => hi :: mids.flatMap Big5uao.sgr

def Piece.plain : Piece → Bytes
  | .sgr _ => []
  | .ascii byte => [byte]
  | .pair hi _ lo => [hi, lo]
  | .rune bytes => bytes
  | .lone hi _ => [hi]

def written (pieces : List Piece) : Bytes := pieces.flatMap Piece.bytes

theorem written_cons (piece : Piece) (pieces : List Piece) :
    written (piece :: pieces) = piece.bytes ++ written pieces := List.flatMap_cons

def Scanned : List Piece → Prop
  | [] => True
  | .sgr params :: pieces => AllParameters params ∧ Scanned pieces
  | .ascii byte :: pieces =>
      byte.toNat < 0x80 ∧ parseSGR (byte :: written pieces) = 0 ∧ Scanned pieces
  | .pair hi mids lo :: pieces =>
      0x80 ≤ hi.toNat ∧ (∀ mid ∈ mids, AllParameters mid) ∧
        parseSGR (lo :: written pieces) = 0 ∧ Scanned pieces
  | .rune bytes :: pieces => (∀ byte ∈ bytes, 0x80 ≤ byte.toNat) ∧ Scanned pieces
  | .lone hi mids :: pieces =>
      0x80 ≤ hi.toNat ∧ (∀ mid ∈ mids, AllParameters mid) ∧ pieces = []

/-! ### Scanning -/

theorem parseSGR_other {first : UInt8} (other : first ≠ escape) (rest : Bytes) :
    parseSGR (first :: rest) = 0 := by
  cases rest with
  | nil => rfl
  | cons second rest =>
      rw [parseSGR, if_neg fun both => other both.1]

theorem parseSGR_high {hi : UInt8} (high : 0x80 ≤ hi.toNat) (rest : Bytes) :
    parseSGR (hi :: rest) = 0 := by
  apply parseSGR_other
  rintro rfl
  exact absurd high (by decide)

theorem splitSGRs_flatMap {mids : List Bytes} (all : ∀ mid ∈ mids, AllParameters mid) {rest : Bytes}
    (none : parseSGR rest = 0) : splitSGRs (mids.flatMap sgr ++ rest) = (mids, rest) := by
  induction mids with
  | nil => exact splitSGRs_none none
  | cons mid mids ih =>
      rw [List.forall_mem_cons] at all
      rw [List.flatMap_cons, List.append_assoc, splitSGRs_sgr all.1, ih all.2]

def big5Pieces : Bytes → List Piece
  | [] => []
  | hi :: rest =>
      let sgrLen := parseSGR (hi :: rest)
      if 0 < sgrLen then
        .sgr (((hi :: rest).take (sgrLen - 1)).drop 2) :: big5Pieces (rest.drop (sgrLen - 1))
      else if hi < 0x80 then .ascii hi :: big5Pieces rest
      else
        match _split : splitSGRs rest with
        | (mids, []) => [.lone hi mids]
        | (mids, lo :: after) => .pair hi mids lo :: big5Pieces after
termination_by buf => buf.length
decreasing_by
  · rw [List.length_drop, List.length_cons]
    omega
  · exact Nat.lt_succ_self _
  · have shorter := splitSGRs_length rest
    rw [_split, List.length_cons] at shorter
    rw [List.length_cons]
    omega

theorem drop_sgr {params : Bytes} {first : UInt8} {rest behind : Bytes}
    (whole : first :: rest = sgr params ++ behind) :
    rest.drop (params.length + 2) = behind ∧
      ((first :: rest).take (params.length + 2)).drop 2 = params := by
  obtain ⟨rfl, rfl⟩ := List.cons.inj whole
  constructor
  · change ((params ++ [graphics]) ++ behind).drop (params.length + 1) = behind
    rw [← List.length_singleton (a := graphics), ← List.length_append, List.drop_left]
  · change ((params ++ [graphics]) ++ behind).take params.length = params
    rw [List.append_assoc, List.take_left]

theorem big5Pieces_spec (buf : Bytes) :
    Scanned (big5Pieces buf) ∧ written (big5Pieces buf) = buf := by
  induction size : buf.length using Nat.strong_induction_on generalizing buf with
  | _ size ih =>
      cases buf with
      | nil =>
          rw [big5Pieces]
          exact ⟨trivial, rfl⟩
      | cons hi rest =>
          rw [List.length_cons] at size
          rw [big5Pieces]
          by_cases found : 0 < parseSGR (hi :: rest)
          · obtain ⟨params, behind, all, whole⟩ := eq_sgr_of_parseSGR found
            have length : parseSGR (hi :: rest) = params.length + 3 := by
              rw [whole, parseSGR_sgr all]
            obtain ⟨dropped, taken⟩ := drop_sgr whole
            have shorter := congrArg List.length whole
            rw [List.length_append, sgr_length, List.length_cons] at shorter
            obtain ⟨scanned, same⟩ := ih behind.length (by omega) behind rfl
            rw [if_pos found, length, show params.length + 3 - 1 = params.length + 2 by omega,
              dropped, taken]
            exact ⟨⟨all, scanned⟩, by rw [written_cons, same, whole]; rfl⟩
          · rw [if_neg found]
            have none : parseSGR (hi :: rest) = 0 := by omega
            by_cases low : hi < 0x80
            · obtain ⟨scanned, same⟩ := ih rest.length (by omega) rest rfl
              rw [if_pos low]
              refine ⟨⟨UInt8.lt_iff_toNat_lt.1 low, ?_, scanned⟩, ?_⟩
              · rw [same]
                exact none
              · rw [written_cons, same]
                rfl
            · have high : 0x80 ≤ hi.toNat := Nat.not_lt.1 fun less =>
                low (UInt8.lt_iff_toNat_lt.2 less)
              rw [if_neg low]
              obtain ⟨mids, whole, behind⟩ := splitSGRs_spec rest
              split
              · rename_i params split
                rw [split] at mids whole
                rw [List.append_nil] at whole
                refine ⟨⟨high, mids, rfl⟩, ?_⟩
                rw [written_cons, Piece.bytes, ← whole]
                exact List.append_nil _
              · rename_i params lo after split
                rw [split] at mids whole behind
                dsimp only at mids whole behind
                have shorter := congrArg List.length whole
                rw [List.length_append, List.length_cons] at shorter
                obtain ⟨scanned, same⟩ := ih after.length (by omega) after rfl
                refine ⟨⟨high, mids, ?_, scanned⟩, ?_⟩
                · rw [same]
                  exact behind
                · rw [written_cons, same, Piece.bytes, whole]
                  simp

/-! ### The pieces that are written -/

variable (b2uTable : Nat → UInt16)

/-- A sequence that has been written last can still be changed. -/
def pendingPieces (pending : Option Bytes) : List Piece := (pending.map Piece.sgr).toList

def joined (pending : Option Bytes) (mids : List Bytes) : Bytes :=
  (match pending with
    | none => [0x36, 0x36]
    | some params => params ++ [semicolon, 0x36, 0x36]) ++
    mids.flatMap fun mid => semicolon :: mid

def charOf (hi lo : UInt8) : Bytes := encodedRune (b2uTable (codeOf hi lo)).toNat

def output (pending : Option Bytes) : List Piece → List Piece
  | [] => pendingPieces pending
  | .sgr params :: pieces => pendingPieces pending ++ output (some params) pieces
  | .ascii byte :: pieces => pendingPieces pending ++ .ascii byte :: output none pieces
  | .pair hi mids lo :: pieces =>
      (if mids = [] then pendingPieces pending else [.sgr (joined pending mids)]) ++
        .rune (charOf b2uTable hi lo) :: output none pieces
  | .rune bytes :: pieces => pendingPieces pending ++ .rune bytes :: output none pieces
  | .lone hi mids :: pieces => pendingPieces pending ++ .lone hi mids :: output none pieces

theorem written_append (left right : List Piece) :
    written (left ++ right) = written left ++ written right := List.flatMap_append

theorem written_joined (pending : Option Bytes) (mids : List Bytes) (out : Bytes) :
    mergeSGRs (out ++ written (pendingPieces pending)) pending.isSome mids =
      out ++ written [.sgr (joined pending mids)] := by
  cases pending with
  | none =>
      rw [mergeSGRs, if_neg (fun both => Bool.false_ne_true both.1)]
      simp [pendingPieces, written, Piece.bytes, sgr, joined]
  | some params =>
      have last : (out ++ written (pendingPieces (some params))).getLast? = some graphics ∧
          (out ++ written (pendingPieces (some params))).dropLast =
            out ++ escape :: bracket :: params := by
        have shape : out ++ written (pendingPieces (some params)) =
            (out ++ escape :: bracket :: params) ++ [graphics] := by
          simp [pendingPieces, written, Piece.bytes, sgr]
        rw [shape, List.getLast?_concat, List.dropLast_concat]
        exact ⟨rfl, rfl⟩
      rw [mergeSGRs, if_pos ⟨rfl, last.1⟩, last.2]
      simp [written, Piece.bytes, sgr, joined]

section Steps

variable {b2uTable} (out : Bytes) (prevWasSGR : Bool)

theorem decodeLoop_sgr {params : Bytes} (all : AllParameters params) (rest : Bytes) :
    decodeLoop b2uTable out prevWasSGR (sgr params ++ rest) =
      decodeLoop b2uTable (out ++ sgr params) true rest := by
  have length := parseSGR_sgr all rest
  have taken : (sgr params ++ rest).take (params.length + 3) = sgr params := by
    rw [← sgr_length, List.take_left]
  have whole : escape :: (bracket :: (params ++ [graphics]) ++ rest) = sgr params ++ rest := rfl
  obtain ⟨behind, _⟩ := drop_sgr whole
  change decodeLoop b2uTable out prevWasSGR
    (escape :: (bracket :: (params ++ [graphics]) ++ rest)) = _
  rw [decodeLoop]
  change (if 0 < parseSGR (sgr params ++ rest) then
    decodeLoop b2uTable (out ++ (sgr params ++ rest).take (parseSGR (sgr params ++ rest))) true
      ((bracket :: (params ++ [graphics]) ++ rest).drop (parseSGR (sgr params ++ rest) - 1))
    else _) = _
  rw [if_pos (by omega), length, taken, show params.length + 3 - 1 = params.length + 2 by omega]
  exact congrArg _ behind

theorem decodeLoop_ascii {byte : UInt8} {rest : Bytes} (low : byte.toNat < 0x80)
    (none : parseSGR (byte :: rest) = 0) :
    decodeLoop b2uTable out prevWasSGR (byte :: rest) =
      decodeLoop b2uTable (out ++ [byte]) false rest := by
  rw [decodeLoop, none, if_neg (by omega), if_pos (UInt8.lt_iff_toNat_lt.2 low)]

theorem decodeLoop_pair {hi lo : UInt8} {mids : List Bytes} {after : Bytes} (high : 0x80 ≤ hi.toNat)
    (all : ∀ mid ∈ mids, AllParameters mid) (none : parseSGR (lo :: after) = 0)
    (mapped : (b2uTable (codeOf hi lo)).toNat ≠ 0) :
    decodeLoop b2uTable out prevWasSGR (hi :: (mids.flatMap sgr ++ lo :: after)) =
      decodeLoop b2uTable
        ((if mids = [] then out else mergeSGRs out prevWasSGR mids) ++ charOf b2uTable hi lo)
        false after := by
  have wide : ¬ hi < 0x80 := fun less => Nat.not_lt.2 high (UInt8.lt_iff_toNat_lt.1 less)
  rw [decodeLoop, parseSGR_high high, if_neg (by omega), if_neg wide]
  split
  · rename_i split
    rw [splitSGRs_flatMap all none] at split
    cases split
  · rename_i split
    rw [splitSGRs_flatMap all none] at split
    cases split
    dsimp only
    rw [if_pos mapped]
    rfl

theorem decodeLoop_sgrs {mids : List Bytes} (all : ∀ mid ∈ mids, AllParameters mid) :
    decodeLoop b2uTable out prevWasSGR (mids.flatMap sgr) = out ++ mids.flatMap sgr := by
  induction mids generalizing out prevWasSGR with
  | nil => rw [List.flatMap_nil, decodeLoop, List.append_nil]
  | cons mid mids ih =>
      rw [List.forall_mem_cons] at all
      rw [List.flatMap_cons, decodeLoop_sgr _ _ all.1, ih _ _ all.2, List.append_assoc]

theorem decodeLoop_lone {hi : UInt8} {mids : List Bytes} (high : 0x80 ≤ hi.toNat)
    (all : ∀ mid ∈ mids, AllParameters mid) :
    decodeLoop b2uTable out prevWasSGR (hi :: mids.flatMap sgr) =
      out ++ hi :: mids.flatMap sgr := by
  have wide : ¬ hi < 0x80 := fun less => Nat.not_lt.2 high (UInt8.lt_iff_toNat_lt.1 less)
  have whole : splitSGRs (mids.flatMap sgr ++ []) = (mids, []) := splitSGRs_flatMap all rfl
  rw [List.append_nil] at whole
  rw [decodeLoop, parseSGR_high high, if_neg (by omega), if_neg wide]
  split
  · rw [decodeLoop_sgrs _ _ all, List.append_assoc, List.singleton_append]
  · rename_i split
    rw [whole] at split
    cases split

end Steps

def WideTable : Prop :=
  ∀ code, 0x8000 ≤ code → code < 0x10000 → 0x80 ≤ (b2uTable code).toNat

variable {b2uTable}

theorem WideTable.wide (table : WideTable b2uTable) {hi : UInt8} (high : 0x80 ≤ hi.toNat)
    (lo : UInt8) : 0x80 ≤ (b2uTable (codeOf hi lo)).toNat := by
  have first := hi.toNat_lt
  have second := lo.toNat_lt
  apply table <;> (rw [codeOf]; omega)

theorem decodeLoop_written (table : WideTable b2uTable) {pieces : List Piece}
    (scanned : Scanned pieces) (big5 : ∀ bytes, .rune bytes ∉ pieces) (out : Bytes)
    (pending : Option Bytes) :
    decodeLoop b2uTable (out ++ written (pendingPieces pending)) pending.isSome (written pieces) =
      out ++ written (output b2uTable pending pieces) := by
  induction pieces generalizing out pending with
  | nil =>
      change decodeLoop b2uTable _ _ [] = _
      rw [decodeLoop, output]
  | cons piece pieces ih =>
      have others : ∀ bytes, .rune bytes ∉ pieces := fun bytes member =>
        big5 bytes (List.mem_cons_of_mem _ member)
      cases piece with
      | sgr params =>
          obtain ⟨all, scanned⟩ := scanned
          have next := ih scanned others (out ++ written (pendingPieces pending)) (some params)
          have shown : written (pendingPieces (some params)) = sgr params := List.append_nil _
          rw [shown, Option.isSome_some] at next
          rw [written_cons, Piece.bytes, decodeLoop_sgr _ _ all, next, output, written_append,
            List.append_assoc]
      | ascii byte =>
          obtain ⟨low, none, scanned⟩ := scanned
          have next := ih scanned others (out ++ written (pendingPieces pending) ++ [byte]) .none
          have shown : written (pendingPieces .none) = [] := rfl
          rw [shown, List.append_nil, Option.isSome_none] at next
          rw [written_cons, Piece.bytes, List.singleton_append, decodeLoop_ascii _ _ low none, next,
            output, written_append, written_cons, Piece.bytes]
          simp only [List.append_assoc]
      | pair hi mids lo =>
          obtain ⟨high, all, none, scanned⟩ := scanned
          have wide := table.wide high lo
          have shown : written (pendingPieces .none) = [] := rfl
          have front : (if mids = [] then out ++ written (pendingPieces pending)
              else mergeSGRs (out ++ written (pendingPieces pending)) pending.isSome mids) =
              out ++ written
                (if mids = [] then pendingPieces pending else [.sgr (joined pending mids)]) := by
            split
            · rfl
            · exact written_joined pending mids out
          have next := ih scanned others (out ++ written
            (if mids = [] then pendingPieces pending else [.sgr (joined pending mids)]) ++
              charOf b2uTable hi lo) .none
          rw [shown, List.append_nil, Option.isSome_none] at next
          rw [written_cons, Piece.bytes, List.cons_append, List.append_assoc, List.singleton_append,
            decodeLoop_pair _ _ high all none (by omega), front, next, output, written_append,
            written_cons, Piece.bytes]
          simp only [List.append_assoc]
      | rune bytes => exact absurd List.mem_cons_self (big5 bytes)
      | lone hi mids =>
          obtain ⟨high, all, rfl⟩ := scanned
          rw [written_cons, Piece.bytes, show written [] = [] from rfl, List.append_nil,
            decodeLoop_lone _ _ high all, output, written_append, written_cons, Piece.bytes]
          simp [output, pendingPieces, written]

theorem rune_not_mem_big5Pieces (buf : Bytes) : ∀ bytes, .rune bytes ∉ big5Pieces buf := by
  intro bytes
  fun_induction big5Pieces buf <;> simp_all

end Pttbbs.Big5uao
