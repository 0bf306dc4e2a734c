/-
Where a control sequence ends.

One function finds the last byte of a sequence and what kind of sequence it is; another one finds
the first byte behind it.  Both start at an ESC.
-/

import Pttbbs.Lib.Bytes
import Mathlib.Data.List.TakeWhile

namespace Pttbbs.Common.ControlSeq

open Pttbbs.Lib

/-! ### The two scanners -/

def escChr : UInt8 := 0x1B

def bel : UInt8 := 0x07

def isParameter (byte : UInt8) : Bool := 0x30 ≤ byte && byte ≤ 0x3F

def isIntermediate (byte : UInt8) : Bool := 0x20 ≤ byte && byte ≤ 0x2F

def isFinal (byte : UInt8) : Bool := 0x40 ≤ byte && byte ≤ 0x7E

/-- `<`, `=`, `>` and `?` -/
def isPrivate (byte : UInt8) : Bool := 0x3C ≤ byte && byte ≤ 0x3F

/-- The bytes that `safe_mask` stands for. -/
def safeFinals : Bytes :=
  [0x41, 0x42, 0x43, 0x44, 0x48, 0x49, 0x4A, 0x4B, 0x66, 0x68, 0x6C, 0x6D, 0x73, 0x75]

/-- `(`, `)`, `*`, `+`, `-`, `.`, `/` and `#` -/
def isDesignator (byte : UInt8) : Bool :=
  byte ∈ ([0x28, 0x29, 0x2A, 0x2B, 0x2D, 0x2E, 0x2F, 0x23] : Bytes)

/-- How many bytes are in front of the end of an OSC sequence, or of the string. -/
def oscLength : Bytes → Nat
  | [] => 0
  | byte :: rest =>
      if byte = bel ∨ byte = escChr ∧ rest.head? = some 0x5C then 0 else oscLength rest + 1

structure Scan where
  last : Nat
  isColor : Bool
  isSafeCmd : Bool
deriving DecidableEq, Repr

def scanControlSequence : Bytes → Scan
  | [] => { last := 0, isColor := false, isSafeCmd := false }
  | byte :: body =>
      if byte = 0x5B then
        let params := body.takeWhile isParameter
        let after := body.dropWhile isParameter
        let inters := after.takeWhile isIntermediate
        let p := 2 + params.length + inters.length
        let malformed : Scan :=
          { last := if p > 2 then p - 1 else 1, isColor := false, isSafeCmd := false }
        match after.dropWhile isIntermediate with
        | [] => malformed
        | final :: _ =>
            if isFinal final then
              let common := ¬ isPrivate (body.headD 0)
              { last := p
                isColor := common ∧ final = 0x6D
                isSafeCmd := common ∧ final ∈ safeFinals }
            else malformed
      else if byte = 0x5D then
        let p := 2 + oscLength body
        { last :=
            match body.drop (oscLength body) with
            | [] => p - 1
            | stop :: _ => if stop = bel then p else p + 1
          isColor := false
          isSafeCmd := false }
      else
        { last := if isDesignator byte ∧ body ≠ [] then 2 else 1
          isColor := false
          isSafeCmd := false }

def skipControlSequence : Bytes → Nat
  | [] => 1
  | byte :: body =>
      if byte = 0x5B then
        let middle := body.takeWhile fun byte => isParameter byte || isIntermediate byte
        let p := 2 + middle.length
        match body.dropWhile fun byte => isParameter byte || isIntermediate byte with
        | [] => p
        | final :: _ => if isFinal final then p + 1 else p
      else if byte = 0x5D then
        let p := 2 + oscLength body
        match body.drop (oscLength body) with
        | [] => p
        | stop :: _ => if stop = bel then p + 1 else p + 2
      else if isDesignator byte then if body ≠ [] then 3 else 2
      else 2

/-! ### Where they agree -/

def isMixed : Bytes → Bool
  | [] => false
  | byte :: body =>
      byte = 0x5B ∧ (body.dropWhile isParameter).takeWhile isIntermediate ≠ [] ∧
        isParameter (((body.dropWhile isParameter).dropWhile isIntermediate).headD 0) = true

theorem intermediate_not_parameter {byte : UInt8} (inter : isIntermediate byte = true) :
    isParameter byte = false := by
  simp only [isIntermediate, isParameter, Bool.and_eq_true, decide_eq_true_eq,
    UInt8.le_iff_toNat_le] at inter ⊢
  simp only [Bool.and_eq_false_iff, decide_eq_false_iff_not, UInt8.toNat_ofNat] at inter ⊢
  left
  omega

theorem final_facts {byte : UInt8} (final : isFinal byte = true) :
    isParameter byte = false ∧ isIntermediate byte = false ∧ byte ≠ escChr := by
  have all : ∀ value : Fin 256, isFinal (.ofNat value) = true →
      isParameter (.ofNat value) = false ∧ isIntermediate (.ofNat value) = false ∧
        (.ofNat value : UInt8) ≠ escChr := by decide +kernel
  have held := all ⟨byte.toNat, byte.toNat_lt⟩
  rw [UInt8.ofNat_toNat] at held
  exact held final

theorem head_dropWhile {property : UInt8 → Bool} {text : Bytes} {first : UInt8} {rest : Bytes}
    (same : text.dropWhile property = first :: rest) : property first = false := by
  have head := List.head?_dropWhile_not property text
  rw [same] at head
  simpa using head

theorem csi_split (body : Bytes) :
    body = body.takeWhile isParameter ++ (body.dropWhile isParameter).takeWhile isIntermediate ++
      (body.dropWhile isParameter).dropWhile isIntermediate := by
  rw [List.append_assoc, List.takeWhile_append_dropWhile, List.takeWhile_append_dropWhile]

theorem csi_runs {params inters tail : Bytes} (allParams : ∀ byte ∈ params, isParameter byte = true)
    (allInters : ∀ byte ∈ inters, isIntermediate byte = true)
    (stops : ∀ byte ∈ tail.head?, isParameter byte = false ∧ isIntermediate byte = false) :
    let body := params ++ inters ++ tail
    body.takeWhile isParameter = params ∧
      (body.dropWhile isParameter).takeWhile isIntermediate = inters ∧
      (body.dropWhile isParameter).dropWhile isIntermediate = tail := by
  intro body
  have inner : (inters ++ tail).takeWhile isParameter = [] ∧
      (inters ++ tail).dropWhile isParameter = inters ++ tail := by
    cases inters with
    | nil =>
        cases tail with
        | nil => exact ⟨rfl, rfl⟩
        | cons first rest => simp [(stops first rfl).1]
    | cons first rest =>
        simp [intermediate_not_parameter (allInters first List.mem_cons_self)]
  have ends : tail.takeWhile isIntermediate = [] ∧ tail.dropWhile isIntermediate = tail := by
    cases tail with
    | nil => exact ⟨rfl, rfl⟩
    | cons first rest => simp [(stops first rfl).2]
  have shape : body = params ++ (inters ++ tail) := List.append_assoc _ _ _
  refine ⟨?_, ?_, ?_⟩
  · rw [shape, List.takeWhile_append_of_pos allParams, inner.1, List.append_nil]
  · rw [shape, List.dropWhile_append_of_pos allParams, inner.2,
      List.takeWhile_append_of_pos allInters, ends.1, List.append_nil]
  · rw [shape, List.dropWhile_append_of_pos allParams, inner.2,
      List.dropWhile_append_of_pos allInters, ends.2]

theorem csi_run {body : Bytes}
    (stops : isParameter (((body.dropWhile isParameter).dropWhile isIntermediate).headD 0) = false) :
    (body.takeWhile fun byte => isParameter byte || isIntermediate byte) =
        body.takeWhile isParameter ++ (body.dropWhile isParameter).takeWhile isIntermediate ∧
      (body.dropWhile fun byte => isParameter byte || isIntermediate byte) =
        (body.dropWhile isParameter).dropWhile isIntermediate := by
  have split := csi_split body
  have params : ∀ byte ∈ body.takeWhile isParameter, isParameter byte = true :=
    fun byte member => List.mem_takeWhile_imp member
  have inters : ∀ byte ∈ (body.dropWhile isParameter).takeWhile isIntermediate,
      isIntermediate byte = true := fun byte member => List.mem_takeWhile_imp member
  generalize body.takeWhile isParameter = left at *
  generalize behind : (body.dropWhile isParameter).dropWhile isIntermediate = tail at *
  generalize (body.dropWhile isParameter).takeWhile isIntermediate = middle at *
  have both : ∀ byte ∈ left ++ middle, (isParameter byte || isIntermediate byte) = true := by
    intro byte member
    rcases List.mem_append.1 member with inLeft | inMiddle
    · rw [params byte inLeft, Bool.true_or]
    · rw [inters byte inMiddle, Bool.or_true]
  have ends : (tail.takeWhile fun byte => isParameter byte || isIntermediate byte) = [] ∧
      (tail.dropWhile fun byte => isParameter byte || isIntermediate byte) = tail := by
    cases tail with
    | nil => exact ⟨rfl, rfl⟩
    | cons first rest =>
        have inter := head_dropWhile behind
        have param : isParameter first = false := stops
        rw [List.takeWhile_cons, List.dropWhile_cons, param, inter]
        exact ⟨rfl, rfl⟩
  rw [split]
  rw [List.takeWhile_append_of_pos both, List.dropWhile_append_of_pos both, ends.1, ends.2,
    List.append_nil]
  exact ⟨rfl, rfl⟩

theorem csi_run_mixed {body : Bytes}
    (param : isParameter (((body.dropWhile isParameter).dropWhile isIntermediate).headD 0) = true) :
    (body.takeWhile isParameter).length +
        ((body.dropWhile isParameter).takeWhile isIntermediate).length <
      (body.takeWhile fun byte => isParameter byte || isIntermediate byte).length := by
  have split := csi_split body
  have params : ∀ byte ∈ body.takeWhile isParameter, isParameter byte = true :=
    fun byte member => List.mem_takeWhile_imp member
  have inters : ∀ byte ∈ (body.dropWhile isParameter).takeWhile isIntermediate,
      isIntermediate byte = true := fun byte member => List.mem_takeWhile_imp member
  generalize body.takeWhile isParameter = left at *
  generalize (body.dropWhile isParameter).dropWhile isIntermediate = tail at *
  generalize (body.dropWhile isParameter).takeWhile isIntermediate = middle at *
  have both : ∀ byte ∈ left ++ middle, (isParameter byte || isIntermediate byte) = true := by
    intro byte member
    rcases List.mem_append.1 member with inLeft | inMiddle
    · rw [params byte inLeft, Bool.true_or]
    · rw [inters byte inMiddle, Bool.or_true]
  cases tail with
  | nil => cases param
  | cons first rest =>
      have parameter : isParameter first = true := param
      rw [split, List.takeWhile_append_of_pos both, List.takeWhile_cons, parameter]
      simp

theorem oscLength_le (body : Bytes) : oscLength body ≤ body.length := by
  induction body with
  | nil => exact Nat.le_refl _
  | cons byte rest ih =>
      rw [oscLength, List.length_cons]
      split <;> omega

theorem osc_stop {body : Bytes} {stop : UInt8} {rest : Bytes}
    (same : body.drop (oscLength body) = stop :: rest) :
    stop = bel ∨ stop = escChr ∧ rest.head? = some 0x5C := by
  induction body with
  | nil => cases same
  | cons byte others ih =>
      rw [oscLength] at same
      by_cases stops : byte = bel ∨ byte = escChr ∧ others.head? = some 0x5C
      · rw [if_pos stops, List.drop_zero, List.cons.injEq] at same
        rw [← same.1, ← same.2]
        rcases stops with bell | ⟨esc, backslash⟩
        · exact .inl bell
        · exact .inr ⟨esc, backslash⟩
      · rw [if_neg stops, List.drop_succ_cons] at same
        exact ih same

theorem scan_csi (body : Bytes) :
    let count := (body.takeWhile isParameter).length +
      ((body.dropWhile isParameter).takeWhile isIntermediate).length
    let tail := (body.dropWhile isParameter).dropWhile isIntermediate
    (scanControlSequence (0x5B :: body)).last + 1 =
      if tail ≠ [] ∧ isFinal (tail.headD 0) = true then count + 3 else count + 2 := by
  intro count tail
  simp only [scanControlSequence, if_true]
  have start : (if 2 + (body.takeWhile isParameter).length +
      ((body.dropWhile isParameter).takeWhile isIntermediate).length > 2 then
      2 + (body.takeWhile isParameter).length +
        ((body.dropWhile isParameter).takeWhile isIntermediate).length - 1 else 1) + 1 =
      count + 2 := by
    split <;> omega
  cases stop : (body.dropWhile isParameter).dropWhile isIntermediate with
  | nil =>
      have none : tail = [] := stop
      simp only [start, none, ne_eq, not_true_eq_false, false_and, if_false]
  | cons final others =>
      have more : tail = final :: others := stop
      by_cases ends : isFinal final = true
      · simp only [ends, if_true, more, ne_eq, reduceCtorEq, not_false_eq_true, List.headD_cons,
          true_and]
        omega
      · simp only [ends, more, ne_eq, reduceCtorEq, not_false_eq_true, List.headD_cons, true_and,
          Bool.false_eq_true, if_false, start]

theorem skip_csi (body : Bytes) :
    let count := (body.takeWhile fun byte => isParameter byte || isIntermediate byte).length
    let tail := body.dropWhile fun byte => isParameter byte || isIntermediate byte
    skipControlSequence (0x5B :: body) =
      if tail ≠ [] ∧ isFinal (tail.headD 0) = true then count + 3 else count + 2 := by
  intro count tail
  simp only [skipControlSequence, if_true]
  cases stop : body.dropWhile fun byte => isParameter byte || isIntermediate byte with
  | nil =>
      have none : tail = [] := stop
      simp only [none, ne_eq, not_true_eq_false, false_and, if_false]
      omega
  | cons final others =>
      have more : tail = final :: others := stop
      by_cases ends : isFinal final = true
      · simp only [ends, if_true, more, ne_eq, reduceCtorEq, not_false_eq_true, List.headD_cons,
          true_and]
        omega
      · simp only [ends, more, ne_eq, reduceCtorEq, not_false_eq_true, List.headD_cons, true_and,
          Bool.false_eq_true, if_false]
        omega

theorem scan_skip_other {byte : UInt8} (body : Bytes) (other : byte ≠ 0x5B) :
    (scanControlSequence (byte :: body)).last + 1 = skipControlSequence (byte :: body) := by
  simp only [scanControlSequence, skipControlSequence, if_neg other]
  by_cases osc : byte = 0x5D
  · rw [if_pos osc, if_pos osc]
    cases stop : body.drop (oscLength body) with
    | nil =>
        change 2 + oscLength body - 1 + 1 = 2 + oscLength body
        omega
    | cons first others =>
        change (if first = bel then _ else _) + 1 = if first = bel then _ else _
        split <;> omega
  · rw [if_neg osc, if_neg osc]
    by_cases designator : isDesignator byte = true
    · by_cases last : body = []
      · simp [designator, last]
      · simp [designator, last]
    · simp [designator]

theorem skip_range (rest : Bytes) :
    1 ≤ skipControlSequence rest ∧ skipControlSequence rest ≤ rest.length + 1 := by
  cases rest with
  | nil => exact ⟨Nat.le_refl _, Nat.le_refl _⟩
  | cons byte body =>
      rw [List.length_cons]
      by_cases csi : byte = 0x5B
      · subst csi
        have whole := congrArg List.length (List.takeWhile_append_dropWhile
          (p := fun byte => isParameter byte || isIntermediate byte) (l := body))
        rw [List.length_append] at whole
        rw [skip_csi]
        split
        · rename_i final
          have longer := List.length_pos_of_ne_nil final.1
          omega
        · omega
      · simp only [skipControlSequence, if_neg csi]
        split
        · have upTo := oscLength_le body
          split
          · omega
          · rename_i stop others same
            have lengths := congrArg List.length same
            rw [List.length_drop, List.length_cons] at lengths
            rcases osc_stop same with bell | ⟨_, backslash⟩
            · rw [if_pos bell]
              omega
            · have more : others ≠ [] := by
                rintro rfl
                cases backslash
              have longer := List.length_pos_of_ne_nil more
              split <;> omega
        · split
          · split
            · rename_i more
              have longer := List.length_pos_of_ne_nil more
              omega
            · omega
          · omega

theorem isMixed_csi (body : Bytes) :
    isMixed (0x5B :: body) = true ↔
      isParameter (((body.dropWhile isParameter).dropWhile isIntermediate).headD 0) = true := by
  rw [isMixed, decide_eq_true_eq]
  refine ⟨fun mixed => mixed.2.2, fun param => ⟨rfl, ?_, param⟩⟩
  intro none
  have split := List.takeWhile_append_dropWhile (p := isIntermediate) (l := body.dropWhile isParameter)
  rw [none, List.nil_append] at split
  rw [split] at param
  cases behind : body.dropWhile isParameter with
  | nil =>
      rw [behind] at param
      cases param
  | cons first rest =>
      rw [behind, List.headD_cons, head_dropWhile behind] at param
      cases param

theorem scan_skip_plain {rest : Bytes} (plain : isMixed rest = false) :
    (scanControlSequence rest).last + 1 = skipControlSequence rest := by
  cases rest with
  | nil => rfl
  | cons byte body =>
      by_cases csi : byte = 0x5B
      · subst csi
        have param := mt (isMixed_csi body).2 (by rw [plain]; simp)
        have run := csi_run (by simpa using param)
        rw [scan_csi, skip_csi, run.1, run.2, List.length_append]
      · exact scan_skip_other body csi

theorem scan_skip_mixed {rest : Bytes} (mixed : isMixed rest = true) :
    (scanControlSequence rest).last + 1 < skipControlSequence rest := by
  cases rest with
  | nil => cases mixed
  | cons byte body =>
      have csi : byte = 0x5B := (of_decide_eq_true mixed).1
      subst csi
      have param := (isMixed_csi body).1 mixed
      have longer := csi_run_mixed param
      have unfinished : isFinal
          (((body.dropWhile isParameter).dropWhile isIntermediate).headD 0) = false := by
        by_contra final
        rw [(final_facts (by simpa using final)).1] at param
        cases param
      rw [scan_csi, skip_csi, unfinished, if_neg (by simp)]
      split <;> omega

end Pttbbs.Common.ControlSeq
