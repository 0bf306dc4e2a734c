/-
Stripping control sequences from a string.

Everything is stripped, or all but colours, or all but the commands that are safe.  What is kept
is made of whole sequences, so that stripping again changes nothing.
-/

import Pttbbs.Common.ControlSeq

namespace Pttbbs.Common.ControlSeq

open Pttbbs.Lib

/-! ### The strippers -/

inductive StripFlag where
  | stripAll
  | onlyColor
  | noReload
deriving DecidableEq, Repr

def stripControlSequence (src : Bytes) : Bytes :=
  match found : src.dropWhile (· ≠ escChr) with
  | [] => src.takeWhile (· ≠ escChr)
  | _ :: rest =>
      src.takeWhile (· ≠ escChr) ++ stripControlSequence (rest.drop (skipControlSequence rest - 1))
termination_by src.length
decreasing_by
  have upTo := (List.dropWhile_sublist (· ≠ escChr) (l := src)).length_le
  rw [found, List.length_cons] at upTo
  rw [List.length_drop]
  omega

def StripFlag.keeps (mode : StripFlag) (scan : Scan) : Bool :=
  mode = .noReload && scan.isSafeCmd || mode = .onlyColor && scan.isColor

def stripKeeping (mode : StripFlag) : Bytes → Bytes
  | [] => []
  | byte :: rest =>
      if byte ≠ escChr then byte :: stripKeeping mode rest
      else
        let scan := scanControlSequence rest
        (if mode.keeps scan then (byte :: rest).take (scan.last + 1) else []) ++
          stripKeeping mode (rest.drop scan.last)
termination_by src => src.length
decreasing_by
  · simp
  · rw [List.length_drop, List.length_cons]
    omega

def stripControlSequenceEx (src : Bytes) (mode : StripFlag) : Bytes :=
  if mode = .stripAll then stripControlSequence src else stripKeeping mode src

/-! ### One step -/

theorem strip_eq (src : Bytes) :
    stripControlSequence src = src.takeWhile (· ≠ escChr) ++
      match src.dropWhile (· ≠ escChr) with
      | [] => []
      | _ :: rest => stripControlSequence (rest.drop (skipControlSequence rest - 1)) := by
  rw [stripControlSequence]
  split
  · rename_i none
    rw [none, List.append_nil]
  · rename_i some
    rw [some]

@[simp]
theorem strip_nil : stripControlSequence [] = [] := by
  rw [strip_eq]
  rfl

theorem strip_byte {byte : UInt8} (plain : byte ≠ escChr) (rest : Bytes) :
    stripControlSequence (byte :: rest) = byte :: stripControlSequence rest := by
  have first : (decide (byte ≠ escChr)) = true := decide_eq_true plain
  rw [strip_eq (byte :: rest), strip_eq rest, List.dropWhile_cons, List.takeWhile_cons, if_pos first,
    if_pos first, List.cons_append]

theorem strip_sequence (rest : Bytes) :
    stripControlSequence (escChr :: rest) =
      stripControlSequence (rest.drop (skipControlSequence rest - 1)) := by
  have first : ¬ (decide (escChr ≠ escChr)) = true := by simp
  rw [strip_eq (escChr :: rest), List.dropWhile_cons, List.takeWhile_cons, if_neg first,
    if_neg first, List.nil_append]

@[simp]
theorem keeping_nil (mode : StripFlag) : stripKeeping mode [] = [] := by rw [stripKeeping]

theorem keeping_byte (mode : StripFlag) {byte : UInt8} (plain : byte ≠ escChr) (rest : Bytes) :
    stripKeeping mode (byte :: rest) = byte :: stripKeeping mode rest := by
  rw [stripKeeping, if_pos plain]

theorem keeping_sequence (mode : StripFlag) (rest : Bytes) :
    stripKeeping mode (escChr :: rest) =
      (if mode.keeps (scanControlSequence rest) then
        (escChr :: rest).take ((scanControlSequence rest).last + 1) else []) ++
        stripKeeping mode (rest.drop (scanControlSequence rest).last) := by
  rw [stripKeeping, if_neg (by simp)]

/-! ### Whole sequences -/

structure IsCsi (sequence : Bytes) (params inters : Bytes) (final : UInt8) : Prop where
  shape : sequence = 0x5B :: (params ++ inters ++ [final])
  params : ∀ byte ∈ params, isParameter byte = true
  inters : ∀ byte ∈ inters, isIntermediate byte = true
  final : isFinal final = true

def IsKept (mode : StripFlag) (sequence : Bytes) : Prop :=
  ∃ params inters final, IsCsi sequence params inters final ∧
    mode.keeps (scanControlSequence sequence) = true

section Whole

variable {sequence params inters : Bytes} {final : UInt8}

section

variable (csi : IsCsi sequence params inters final)

include csi

theorem IsCsi.runs (tail : Bytes) :
    let body := params ++ inters ++ final :: tail
    sequence ++ tail = 0x5B :: body ∧ body.takeWhile isParameter = params ∧
      (body.dropWhile isParameter).takeWhile isIntermediate = inters ∧
      (body.dropWhile isParameter).dropWhile isIntermediate = final :: tail := by
  intro body
  have facts := final_facts csi.final
  have found := @csi_runs params inters (final :: tail) csi.params csi.inters
    (fun byte head => by cases head; exact ⟨facts.1, facts.2.1⟩)
  refine ⟨?_, found⟩
  rw [csi.shape]
  simp [body]

theorem IsCsi.length :
    sequence.length = params.length + inters.length + 2 := by
  rw [csi.shape]
  simp
  omega

theorem IsCsi.scan (tail : Bytes) :
    scanControlSequence (sequence ++ tail) =
      { last := sequence.length
        isColor := ¬ isPrivate ((params ++ inters ++ [final]).headD 0) ∧ final = 0x6D
        isSafeCmd := ¬ isPrivate ((params ++ inters ++ [final]).headD 0) ∧ final ∈ safeFinals } := by
  obtain ⟨whole, first, second, behind⟩ := csi.runs tail
  have head : (params ++ inters ++ final :: tail).headD 0 =
      (params ++ inters ++ [final]).headD 0 := by
    cases params <;> cases inters <;> rfl
  rw [whole]
  simp only [scanControlSequence, if_true, first, second, behind, csi.final, head, csi.length]
  congr 1
  omega

theorem IsCsi.plain (tail : Bytes) :
    isMixed (sequence ++ tail) = false := by
  obtain ⟨whole, first, second, behind⟩ := csi.runs tail
  rw [whole, isMixed]
  refine decide_eq_false ?_
  rintro ⟨_, _, mixed⟩
  rw [behind, List.headD_cons, (final_facts csi.final).1] at mixed
  cases mixed

theorem IsCsi.skip (tail : Bytes) :
    skipControlSequence (sequence ++ tail) = sequence.length + 1 := by
  rw [← scan_skip_plain (csi.plain tail), csi.scan]

theorem IsCsi.scan_same (tail : Bytes) :
    scanControlSequence (sequence ++ tail) = scanControlSequence sequence := by
  have alone := csi.scan []
  rw [List.append_nil] at alone
  rw [csi.scan, alone]

end

end Whole

theorem kept_whole {mode : StripFlag} {rest : Bytes}
    (keeps : mode.keeps (scanControlSequence rest) = true) :
    ∃ sequence tail, rest = sequence ++ tail ∧ IsKept mode sequence ∧
      (scanControlSequence rest).last = sequence.length := by
  have nothing : ∀ last : Nat, mode.keeps { last, isColor := false, isSafeCmd := false } = false := by
    intro last
    cases mode <;> rfl
  cases rest with
  | nil =>
      rw [scanControlSequence, nothing] at keeps
      cases keeps
  | cons byte body =>
      by_cases start : byte = 0x5B
      · subst start
        have split := csi_split body
        cases behind : (body.dropWhile isParameter).dropWhile isIntermediate with
        | nil =>
            simp only [scanControlSequence, if_true, behind, nothing] at keeps
            cases keeps
        | cons final tail =>
            by_cases ends : isFinal final = true
            · have csi : IsCsi (0x5B :: (body.takeWhile isParameter ++
                  (body.dropWhile isParameter).takeWhile isIntermediate ++ [final]))
                  (body.takeWhile isParameter)
                  ((body.dropWhile isParameter).takeWhile isIntermediate) final :=
                { shape := rfl
                  params := fun byte member => List.mem_takeWhile_imp member
                  inters := fun byte member => List.mem_takeWhile_imp member
                  final := ends }
              have whole : (0x5B : UInt8) :: body = 0x5B :: (body.takeWhile isParameter ++
                  (body.dropWhile isParameter).takeWhile isIntermediate ++ [final]) ++ tail := by
                rw [behind] at split
                rw [List.cons_append, List.append_assoc, List.singleton_append, ← split]
              refine ⟨_, tail, whole, ⟨_, _, final, csi, ?_⟩, ?_⟩
              · rw [whole, csi.scan_same] at keeps
                exact keeps
              · rw [whole, csi.scan]
            · simp only [scanControlSequence, if_true, behind, ends, Bool.false_eq_true, if_false,
                nothing] at keeps
      · simp only [scanControlSequence, if_neg start] at keeps
        split at keeps
        · rw [nothing] at keeps
          cases keeps
        · rw [nothing] at keeps
          cases keeps

/-! ### What is kept is whole -/

inductive KeptText (mode : StripFlag) : Bytes → Prop where
  | nil : KeptText mode []
  | byte {byte : UInt8} {rest : Bytes} (plain : byte ≠ escChr) (text : KeptText mode rest) :
      KeptText mode (byte :: rest)
  | sequence {sequence rest : Bytes} (kept : IsKept mode sequence) (text : KeptText mode rest) :
      KeptText mode (escChr :: (sequence ++ rest))

theorem keeping_kept {mode : StripFlag} {sequence : Bytes} (kept : IsKept mode sequence)
    (tail : Bytes) :
    stripKeeping mode (escChr :: (sequence ++ tail)) =
      escChr :: (sequence ++ stripKeeping mode tail) := by
  obtain ⟨params, inters, final, csi, keeps⟩ := kept
  rw [keeping_sequence, csi.scan_same, if_pos keeps]
  have last : (scanControlSequence sequence).last = sequence.length := by
    rw [← csi.scan_same [], csi.scan]
  rw [last, List.take_succ_cons, List.take_left, List.drop_left, List.cons_append]

theorem strip_kept {mode : StripFlag} {sequence : Bytes} (kept : IsKept mode sequence)
    (tail : Bytes) :
    stripControlSequence (escChr :: (sequence ++ tail)) = stripControlSequence tail := by
  obtain ⟨params, inters, final, csi, _⟩ := kept
  rw [strip_sequence, csi.skip, Nat.add_sub_cancel, List.drop_left]

theorem keeping_text (mode : StripFlag) (src : Bytes) : KeptText mode (stripKeeping mode src) := by
  induction src using stripKeeping.induct with
  | case1 =>
      rw [keeping_nil]
      exact .nil
  | case2 byte rest plain ih =>
      rw [keeping_byte mode plain]
      exact .byte plain ih
  | case3 byte rest notPlain scan ih =>
      have esc : byte = escChr := not_not.1 notPlain
      subst esc
      rw [keeping_sequence]
      split
      · rename_i keeps
        obtain ⟨sequence, tail, same, kept, last⟩ := kept_whole keeps
        have taken : (escChr :: rest).take ((scanControlSequence rest).last + 1) =
            escChr :: sequence := by rw [last, same, List.take_succ_cons, List.take_left]
        rw [taken]
        exact .sequence kept ih
      · exact ih

theorem KeptText.same {mode : StripFlag} {text : Bytes} (kept : KeptText mode text) :
    stripKeeping mode text = text := by
  induction kept with
  | nil => exact keeping_nil mode
  | byte plain _ ih => rw [keeping_byte mode plain, ih]
  | sequence kept _ ih => rw [keeping_kept kept, ih]

theorem keeping_idempotent (mode : StripFlag) (src : Bytes) :
    stripKeeping mode (stripKeeping mode src) = stripKeeping mode src :=
  (keeping_text mode src).same

theorem strip_plain (src : Bytes) : escChr ∉ stripControlSequence src := by
  induction src using stripControlSequence.induct with
  | case1 src none =>
      rw [strip_eq, none, List.append_nil]
      exact fun member => by simpa using List.mem_takeWhile_imp member
  | case2 src first rest some ih =>
      rw [strip_eq, some]
      intro member
      rcases List.mem_append.1 member with before | behind
      · simpa using List.mem_takeWhile_imp before
      · exact ih behind

theorem strip_of_plain {src : Bytes} (plain : escChr ∉ src) : stripControlSequence src = src := by
  induction src with
  | nil => exact strip_nil
  | cons byte rest ih =>
      rw [strip_byte (fun same => plain (by rw [same]; exact List.mem_cons_self)),
        ih (fun member => plain (List.mem_cons_of_mem _ member))]

end Pttbbs.Common.ControlSeq
