/-
Decoding of Big5-UAO text with colours inside of its characters.

A sequence between the two bytes of a character has no place in UTF-8.  It is moved in front of the
character, behind the parameter 66, which says that the left half is drawn before it.
-/

import Pttbbs.Big5uao.Transcoder

namespace Pttbbs.Big5uao

open Pttbbs.Lib

/-! ### SGR sequences -/

def escape : UInt8 := 0x1B

def bracket : UInt8 := 0x5B

def semicolon : UInt8 := 0x3B

/-- `m`, the end of an SGR sequence -/
def graphics : UInt8 := 0x6D

def isParameter (byte : UInt8) : Bool := isDigitByte byte || byte = semicolon

def parseSGR : Bytes → Nat
  | first :: second :: rest =>
      if first = escape ∧ second = bracket then
        let given := rest.takeWhile isParameter
        if (rest.drop given.length).head? = some graphics then given.length + 3 else 0
      else 0
  | _ => 0

def sgr (params : Bytes) : Bytes := escape :: bracket :: (params ++ [graphics])

def AllParameters (params : Bytes) : Prop := ∀ byte ∈ params, isParameter byte = true

theorem sgr_length (params : Bytes) : (sgr params).length = params.length + 3 := by
  rw [sgr, List.length_cons, List.length_cons, List.length_append, List.length_singleton]

theorem parseSGR_sgr {params : Bytes} (all : AllParameters params) (rest : Bytes) :
    parseSGR (sgr params ++ rest) = params.length + 3 := by
  have given : (params ++ graphics :: rest).takeWhile isParameter = params := by
    rw [List.takeWhile_append_of_pos all, List.takeWhile_cons_of_neg (by decide), List.append_nil]
  have shape : sgr params ++ rest = escape :: bracket :: (params ++ graphics :: rest) := by
    rw [sgr, List.cons_append, List.cons_append, List.append_assoc, List.singleton_append]
  rw [shape, parseSGR, if_pos ⟨rfl, rfl⟩]
  dsimp only
  rw [given, List.drop_left, List.head?_cons, if_pos rfl]

theorem eq_sgr_of_parseSGR {text : Bytes} (found : 0 < parseSGR text) :
    ∃ params rest, AllParameters params ∧ text = sgr params ++ rest := by
  match text with
  | [] => cases found
  | [_] => cases found
  | first :: second :: rest =>
      rw [parseSGR] at found
      split at found
      · rename_i starts
        obtain ⟨rfl, rfl⟩ := starts
        dsimp only at found
        split at found
        · rename_i ends
          obtain ⟨tail, parts⟩ := List.takeWhile_prefix (l := rest) isParameter
          have all : AllParameters (rest.takeWhile isParameter) :=
            fun byte => List.mem_takeWhile_imp
          generalize rest.takeWhile isParameter = params at parts ends all
          subst parts
          rw [List.drop_left] at ends
          obtain ⟨behind, rfl⟩ := List.head?_eq_some_iff.1 ends
          refine ⟨params, behind, all, ?_⟩
          rw [sgr, List.cons_append, List.cons_append, List.append_assoc, List.singleton_append]
        · omega
      · omega

def splitSGRs (text : Bytes) : List Bytes × Bytes :=
  if _found : 0 < parseSGR text then
    let midLen := parseSGR text
    let (mids, rest) := splitSGRs (text.drop midLen)
    (((text.take (midLen - 1)).drop 2) :: mids, rest)
  else ([], text)
termination_by text.length
decreasing_by
  obtain ⟨params, rest, _, rfl⟩ := eq_sgr_of_parseSGR _found
  rw [List.length_drop, List.length_append, sgr_length]
  omega

theorem splitSGRs_sgr {params : Bytes} (all : AllParameters params) (rest : Bytes) :
    splitSGRs (sgr params ++ rest) = (params :: (splitSGRs rest).1, (splitSGRs rest).2) := by
  have length := parseSGR_sgr all rest
  have behind : (sgr params ++ rest).drop (params.length + 3) = rest := by
    rw [← sgr_length, List.drop_left]
  have inside : ((sgr params ++ rest).take (params.length + 2)).drop 2 = params := by
    rw [sgr, List.cons_append, List.cons_append, List.append_assoc, List.take_succ_cons,
      List.take_succ_cons, List.drop_succ_cons, List.drop_succ_cons, List.drop_zero, List.take_left]
  rw [splitSGRs, dif_pos (by omega), length]
  dsimp only
  rw [behind, show params.length + 3 - 1 = params.length + 2 by omega, inside]

theorem splitSGRs_none {text : Bytes} (none : parseSGR text = 0) : splitSGRs text = ([], text) := by
  rw [splitSGRs, dif_neg (by omega)]

theorem splitSGRs_spec (text : Bytes) :
    (∀ mid ∈ (splitSGRs text).1, AllParameters mid) ∧
      text = (splitSGRs text).1.flatMap sgr ++ (splitSGRs text).2 ∧
      parseSGR (splitSGRs text).2 = 0 := by
  induction size : text.length using Nat.strong_induction_on generalizing text with
  | _ size ih =>
      by_cases found : 0 < parseSGR text
      · obtain ⟨params, rest, all, rfl⟩ := eq_sgr_of_parseSGR found
        rw [List.length_append, sgr_length] at size
        obtain ⟨mids, whole, none⟩ := ih rest.length (by omega) rest rfl
        rw [splitSGRs_sgr all rest]
        refine ⟨List.forall_mem_cons.2 ⟨all, mids⟩, ?_, none⟩
        rw [List.flatMap_cons, List.append_assoc, ← whole]
      · have none : parseSGR text = 0 := by omega
        rw [splitSGRs_none none]
        exact ⟨fun mid member => absurd member List.not_mem_nil, rfl, none⟩

theorem splitSGRs_length (text : Bytes) : (splitSGRs text).2.length ≤ text.length := by
  have whole := congrArg List.length (splitSGRs_spec text).2.1
  rw [List.length_append] at whole
  omega

/-! ### The decoder -/

/-- The sequences inside of a character, written in front of it. -/
def mergeSGRs (out : Bytes) (prevWasSGR : Bool) (mids : List Bytes) : Bytes :=
  let merged :=
    if prevWasSGR ∧ out.getLast? = some graphics then out.dropLast ++ [semicolon, 0x36, 0x36]
    else out ++ [escape, bracket, 0x36, 0x36]
  merged ++ mids.flatMap (fun mid => semicolon :: mid) ++ [graphics]

def decodeLoop (b2uTable : Nat → UInt16) (out : Bytes) (prevWasSGR : Bool) : Bytes → Bytes
  | [] => out
  | hi :: rest =>
      let sgrLen := parseSGR (hi :: rest)
      if 0 < sgrLen then
        decodeLoop b2uTable (out ++ (hi :: rest).take sgrLen) true (rest.drop (sgrLen - 1))
      else if hi < 0x80 then decodeLoop b2uTable (out ++ [hi]) false rest
      else
        match _split : splitSGRs rest with
        | (_, []) => decodeLoop b2uTable (out ++ [hi]) prevWasSGR rest
        | (mids, lo :: after) =>
            let merged := if mids = [] then out else mergeSGRs out prevWasSGR mids
            let u := (b2uTable (codeOf hi lo)).toNat
            let char := if u ≠ 0 then encodedRune u else [hi, lo]
            decodeLoop b2uTable (merged ++ char) false after
termination_by buf => buf.length
decreasing_by
  · rw [List.length_drop, List.length_cons]
    omega
  · exact Nat.lt_succ_self _
  · exact Nat.lt_succ_self _
  · have shorter := splitSGRs_length rest
    rw [_split, List.length_cons] at shorter
    rw [List.length_cons]
    omega

def decodeSGR66 (b2uTable : Nat → UInt16) (buf : Bytes) : Bytes :=
  decodeLoop b2uTable [] false buf

end Pttbbs.Big5uao
