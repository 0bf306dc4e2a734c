/-
Control sequences as a grammar, and the strings that every stripper reads the same way.
-/

import Pttbbs.Common.StripControl

namespace Pttbbs.Common.ControlSeq

open Pttbbs.Lib

/-! ### The grammar -/

def Unstopped (text : Bytes) : Prop :=
  bel ∉ text ∧ ¬ [escChr, 0x5C] <:+: text

inductive Sequence : Bytes → Bytes → Prop where
  | alone : Sequence [] []
  | csi {params inters : Bytes} {final : UInt8} {tail : Bytes}
      (allParams : ∀ byte ∈ params, isParameter byte = true)
      (allInters : ∀ byte ∈ inters, isIntermediate byte = true)
      (ends : isFinal final = true) : Sequence (0x5B :: (params ++ inters ++ final :: tail)) tail
  | broken {params inters tail : Bytes}
      (allParams : ∀ byte ∈ params, isParameter byte = true)
      (allInters : ∀ byte ∈ inters, isIntermediate byte = true)
      (stops : ∀ byte ∈ tail.head?,
        isParameter byte = false ∧ isIntermediate byte = false ∧ isFinal byte = false) :
      Sequence (0x5B :: (params ++ inters ++ tail)) tail
  | oscBell {text tail : Bytes} (inside : Unstopped text) :
      Sequence (0x5D :: (text ++ bel :: tail)) tail
  | oscString {text tail : Bytes} (inside : Unstopped text) :
      Sequence (0x5D :: (text ++ escChr :: 0x5C :: tail)) tail
  | oscOpen {text : Bytes} (inside : Unstopped text) : Sequence (0x5D :: text) []
  | designated {first : UInt8} (second : UInt8) (tail : Bytes)
      (designator : isDesignator first = true) : Sequence (first :: second :: tail) tail
  | undesignated {first : UInt8} (designator : isDesignator first = true) : Sequence [first] []
  | short {first : UInt8} (tail : Bytes) (notCsi : first ≠ 0x5B) (notOsc : first ≠ 0x5D)
      (plain : isDesignator first = false) : Sequence (first :: tail) tail

theorem designator_facts {byte : UInt8} (designator : isDesignator byte = true) :
    byte ≠ 0x5B ∧ byte ≠ 0x5D := by
  constructor
  · rintro rfl
    cases designator
  · rintro rfl
    cases designator

/-! ### OSC sequences -/

theorem Unstopped.tail {byte : UInt8} {text : Bytes} (inside : Unstopped (byte :: text)) :
    Unstopped text :=
  ⟨fun member => inside.1 (List.mem_cons_of_mem _ member),
    fun infixed => inside.2 (infixed.trans (List.suffix_cons byte text).isInfix)⟩

theorem oscLength_unstopped {text rest : Bytes} (inside : Unstopped text)
    (stops : rest = [] ∨ rest.head? = some bel ∨ ∃ tail, rest = escChr :: 0x5C :: tail) :
    oscLength (text ++ rest) = text.length := by
  induction text with
  | nil =>
      rw [List.nil_append, List.length_nil]
      rcases stops with rfl | bell | ⟨tail, rfl⟩
      · rfl
      · cases rest with
        | nil => rfl
        | cons first others =>
            rw [oscLength, if_pos (.inl (Option.some.inj bell))]
      · rw [oscLength, if_pos (.inr ⟨rfl, rfl⟩)]
  | cons byte text ih =>
      have goes : ¬ (byte = bel ∨ byte = escChr ∧ (text ++ rest).head? = some 0x5C) := by
        rintro (bell | ⟨esc, backslash⟩)
        · exact inside.1 (by rw [bell]; exact List.mem_cons_self)
        · cases text with
          | nil =>
              rw [List.nil_append] at backslash
              rcases stops with rfl | bell | ⟨tail, rfl⟩
              · cases backslash
              · rw [bell] at backslash
                cases backslash
              · cases backslash
          | cons second others =>
              have same : second = 0x5C := Option.some.inj backslash
              exact inside.2 ⟨[], others, by rw [esc, same]; rfl⟩
      rw [List.cons_append, oscLength, if_neg goes, ih inside.tail, List.length_cons]

theorem unstopped_take (body : Bytes) : Unstopped (body.take (oscLength body)) := by
  induction body with
  | nil => exact ⟨by simp, by simp⟩
  | cons byte rest ih =>
      rw [oscLength]
      split
      · exact ⟨by simp, by simp⟩
      · rename_i goes
        rw [not_or] at goes
        rw [List.take_succ_cons]
        constructor
        · rw [List.mem_cons, not_or]
          exact ⟨Ne.symm goes.1, ih.1⟩
        · intro infixed
          rcases List.infix_cons_iff.1 infixed with start | inside
          · obtain ⟨others, same⟩ := start
            rw [List.cons_append, List.cons.injEq] at same
            have backslash : rest.head? = some 0x5C := by
              cases rest with
              | nil =>
                  rw [List.take_nil] at same
                  cases same.2
              | cons second more =>
                  have takes : oscLength (second :: more) ≠ 0 := by
                    intro zero
                    rw [zero, List.take_zero] at same
                    cases same.2
                  obtain ⟨count, succ⟩ := Nat.exists_eq_succ_of_ne_zero takes
                  rw [succ, List.take_succ_cons] at same
                  rw [List.head?_cons, ← (List.cons.inj same.2).1]
            exact goes.2 ⟨same.1.symm, backslash⟩
          · exact ih.2 inside

/-! ### The grammar and the scanners -/

theorem skip_osc (body : Bytes) :
    skipControlSequence (0x5D :: body) =
      match body.drop (oscLength body) with
      | [] => 2 + oscLength body
      | stop :: _ => if stop = bel then 2 + oscLength body + 1 else 2 + oscLength body + 2 := by
  rw [skipControlSequence, if_neg (by decide)]
  exact if_pos rfl

theorem skip_short {first : UInt8} (body : Bytes) (notCsi : first ≠ 0x5B) (notOsc : first ≠ 0x5D) :
    skipControlSequence (first :: body) =
      if isDesignator first then if body ≠ [] then 3 else 2 else 2 := by
  rw [skipControlSequence, if_neg notCsi, if_neg notOsc]

theorem Sequence.skips {rest tail : Bytes} (sequence : Sequence rest tail) :
    isMixed rest = false ∧ rest.drop (skipControlSequence rest - 1) = tail := by
  cases sequence with
  | alone => exact ⟨rfl, rfl⟩
  | @csi params inters final _ allParams allInters ends =>
      have csi : IsCsi (0x5B :: (params ++ inters ++ [final])) params inters final :=
        { shape := rfl, params := allParams, inters := allInters, final := ends }
      have whole : (0x5B : UInt8) :: (params ++ inters ++ final :: tail) =
          0x5B :: (params ++ inters ++ [final]) ++ tail := by simp
      rw [whole, csi.skip, Nat.add_sub_cancel, List.drop_left]
      exact ⟨csi.plain tail, rfl⟩
  | @broken params inters _ allParams allInters stops =>
      obtain ⟨first, second, behind⟩ := csi_runs allParams allInters
        (fun byte head => ⟨(stops byte head).1, (stops byte head).2.1⟩)
      have head : isParameter (tail.headD 0) = false ∧ ¬ (isFinal (tail.headD 0) = true) := by
        cases tail with
        | nil => exact ⟨rfl, by decide⟩
        | cons byte others =>
            have facts := stops byte rfl
            exact ⟨facts.1, by rw [List.headD_cons, facts.2.2]; simp⟩
      have run := @csi_run (params ++ inters ++ tail) (by rw [behind]; exact head.1)
      constructor
      · rw [← Bool.not_eq_true, isMixed_csi, behind, head.1]
        simp
      · rw [skip_csi, run.1, run.2, first, second, behind, if_neg (fun both => head.2 both.2),
          Nat.add_succ_sub_one, List.drop_succ_cons, List.drop_left]
  | @oscBell text _ inside =>
      refine ⟨rfl, ?_⟩
      have length := @oscLength_unstopped text (bel :: tail) inside (.inr (.inl rfl))
      have whole : (0x5D : UInt8) :: (text ++ bel :: tail) = 0x5D :: (text ++ [bel]) ++ tail := by simp
      rw [skip_osc, length, List.drop_left, whole]
      exact List.drop_left' (by simp; omega)
  | @oscString text _ inside =>
      refine ⟨rfl, ?_⟩
      have length := @oscLength_unstopped text (escChr :: 0x5C :: tail) inside
        (.inr (.inr ⟨tail, rfl⟩))
      have whole : (0x5D : UInt8) :: (text ++ escChr :: 0x5C :: tail) =
          0x5D :: (text ++ [escChr, 0x5C]) ++ tail := by simp
      rw [skip_osc, length, List.drop_left, whole]
      exact List.drop_left' (by simp [escChr, bel]; omega)
  | @oscOpen text inside =>
      refine ⟨rfl, ?_⟩
      have length := @oscLength_unstopped text [] inside (.inl rfl)
      rw [List.append_nil] at length
      rw [skip_osc, length, List.drop_length]
      change (0x5D :: text).drop (2 + text.length - 1) = []
      exact List.drop_eq_nil_of_le (by rw [List.length_cons]; omega)
  | @designated first second _ designator =>
      have kind := designator_facts designator
      rw [skip_short _ kind.1 kind.2, if_pos designator, if_pos (by simp)]
      exact ⟨by simp [isMixed, kind.1], rfl⟩
  | @undesignated first designator =>
      have kind := designator_facts designator
      rw [skip_short _ kind.1 kind.2, if_pos designator, if_neg (by simp)]
      exact ⟨by simp [isMixed, kind.1], rfl⟩
  | @short first _ notCsi notOsc plain =>
      rw [skip_short _ notCsi notOsc, plain, if_neg (by simp)]
      exact ⟨by simp [isMixed, notCsi], rfl⟩

theorem sequence_csi {body : Bytes} (plain : isMixed (0x5B :: body) = false) :
    ∃ tail, Sequence (0x5B :: body) tail := by
  have split := csi_split body
  have param : isParameter (((body.dropWhile isParameter).dropWhile isIntermediate).headD 0) =
      false := by
    rw [← Bool.not_eq_true, isMixed_csi] at plain
    simpa using plain
  have params : ∀ byte ∈ body.takeWhile isParameter, isParameter byte = true :=
    fun byte member => List.mem_takeWhile_imp member
  have inters : ∀ byte ∈ (body.dropWhile isParameter).takeWhile isIntermediate,
      isIntermediate byte = true := fun byte member => List.mem_takeWhile_imp member
  rw [split]
  cases behind : (body.dropWhile isParameter).dropWhile isIntermediate with
  | nil => exact ⟨[], .broken params inters (fun byte head => by cases head)⟩
  | cons final tail =>
      rw [behind] at param
      by_cases ends : isFinal final = true
      · exact ⟨tail, .csi params inters ends⟩
      · refine ⟨final :: tail, .broken params inters ?_⟩
        intro byte head
        cases head
        exact ⟨param, head_dropWhile behind, by simpa using ends⟩

theorem sequence_osc (body : Bytes) : ∃ tail, Sequence (0x5D :: body) tail := by
  have inside := unstopped_take body
  have split := List.take_append_drop (oscLength body) body
  cases behind : body.drop (oscLength body) with
  | nil =>
      rw [behind, List.append_nil] at split
      rw [split] at inside
      exact ⟨[], .oscOpen inside⟩
  | cons stop others =>
      rw [behind] at split
      rcases osc_stop behind with rfl | ⟨rfl, backslash⟩
      · refine ⟨others, ?_⟩
        rw [← split]
        exact .oscBell inside
      · cases others with
        | nil => cases backslash
        | cons second tail =>
            cases backslash
            refine ⟨tail, ?_⟩
            rw [← split]
            exact .oscString inside

theorem sequence_exists {rest : Bytes} (plain : isMixed rest = false) :
    ∃ tail, Sequence rest tail := by
  cases rest with
  | nil => exact ⟨[], .alone⟩
  | cons byte body =>
      by_cases csi : byte = 0x5B
      · subst csi
        exact sequence_csi plain
      by_cases osc : byte = 0x5D
      · subst osc
        exact sequence_osc body
      cases designator : isDesignator byte with
      | false => exact ⟨body, .short body csi osc designator⟩
      | true =>
          cases body with
          | nil => exact ⟨[], .undesignated designator⟩
          | cons second tail => exact ⟨tail, .designated second tail designator⟩

theorem sequence_iff {rest tail : Bytes} :
    Sequence rest tail ↔ isMixed rest = false ∧ rest.drop (skipControlSequence rest - 1) = tail := by
  constructor
  · exact Sequence.skips
  · rintro ⟨plain, rfl⟩
    obtain ⟨tail, sequence⟩ := sequence_exists plain
    rw [sequence.skips.2]
    exact sequence

/-! ### All is stripped of what is kept -/

inductive Regular : Bytes → Prop where
  | nil : Regular []
  | byte {byte : UInt8} {rest : Bytes} (plain : byte ≠ escChr) (regular : Regular rest) :
      Regular (byte :: rest)
  | sequence {rest tail : Bytes} (sequence : Sequence rest tail) (regular : Regular tail) :
      Regular (escChr :: rest)

theorem regular_byte {byte : UInt8} (plain : byte ≠ escChr) (rest : Bytes) :
    Regular (byte :: rest) ↔ Regular rest := by
  constructor
  · intro regular
    cases regular with
    | byte _ regular => exact regular
    | sequence _ _ => exact absurd rfl plain
  · exact Regular.byte plain

theorem regular_sequence (rest : Bytes) :
    Regular (escChr :: rest) ↔
      isMixed rest = false ∧ Regular (rest.drop (skipControlSequence rest - 1)) := by
  constructor
  · intro regular
    cases regular with
    | byte plain _ => exact absurd rfl plain
    | sequence sequence regular =>
        have skips := sequence_iff.1 sequence
        rw [skips.2]
        exact ⟨skips.1, regular⟩
  · rintro ⟨plain, regular⟩
    exact .sequence (sequence_iff.2 ⟨plain, rfl⟩) regular

theorem csi_plain (body : Bytes) :
    escChr ∉ (0x5B :: body).take (skipControlSequence (0x5B :: body) - 1) := by
  have split := List.takeWhile_append_dropWhile
    (p := fun byte => isParameter byte || isIntermediate byte) (l := body)
  have run : escChr ∉ body.takeWhile fun byte => isParameter byte || isIntermediate byte := by
    intro member
    cases List.mem_takeWhile_imp member
  have skips := skip_csi body
  generalize (body.takeWhile fun byte => isParameter byte || isIntermediate byte) = middle at *
  generalize (body.dropWhile fun byte => isParameter byte || isIntermediate byte) = tail at *
  rw [skips, ← split]
  split
  · rename_i ends
    cases tail with
    | nil => cases ends.1 rfl
    | cons final others =>
        have facts := final_facts ends.2
        rw [show middle.length + 3 - 1 = middle.length + 1 + 1 by omega, List.take_succ_cons,
          List.take_length_add_append, List.take_one, List.head?_cons, Option.toList_some,
          List.mem_cons, List.mem_append, List.mem_singleton, not_or, not_or]
        exact ⟨by decide, run, facts.2.2.symm⟩
  · rw [Nat.add_succ_sub_one, List.take_succ_cons, List.take_left, List.mem_cons, not_or]
    exact ⟨by decide, run⟩

theorem leftover_plain (rest : Bytes) :
    ∃ extra, rest.drop (scanControlSequence rest).last =
        extra ++ rest.drop (skipControlSequence rest - 1) ∧ escChr ∉ extra ∧
      (extra = [] ↔ isMixed rest = false) := by
  cases mixed : isMixed rest with
  | false =>
      have same := scan_skip_plain mixed
      refine ⟨[], ?_, by simp, by simp⟩
      rw [← same, Nat.add_sub_cancel, List.nil_append]
  | true =>
      have less := scan_skip_mixed mixed
      have range := skip_range rest
      refine ⟨(rest.take (skipControlSequence rest - 1)).drop (scanControlSequence rest).last, ?_,
        ?_, ?_⟩
      · rw [← List.drop_append_of_le_length (by rw [List.length_take]; omega),
          List.take_append_drop]
      · intro member
        cases rest with
        | nil => cases mixed
        | cons byte body =>
            have csi : byte = 0x5B := (of_decide_eq_true mixed).1
            subst csi
            exact csi_plain body (List.mem_of_mem_drop member)
      · refine ⟨fun none => ?_, fun impossible => by cases impossible⟩
        have lengths := congrArg List.length none
        rw [List.length_drop, List.length_take, List.length_nil] at lengths
        omega

theorem keeping_plain (mode : StripFlag) {front : Bytes} (plain : escChr ∉ front) (tail : Bytes) :
    stripKeeping mode (front ++ tail) = front ++ stripKeeping mode tail := by
  induction front with
  | nil => rfl
  | cons byte rest ih =>
      rw [List.mem_cons, not_or] at plain
      rw [List.cons_append, keeping_byte mode (Ne.symm plain.1), ih plain.2, List.cons_append]

theorem strip_front {front : Bytes} (plain : escChr ∉ front) (tail : Bytes) :
    stripControlSequence (front ++ tail) = front ++ stripControlSequence tail := by
  induction front with
  | nil => rfl
  | cons byte rest ih =>
      rw [List.mem_cons, not_or] at plain
      rw [List.cons_append, strip_byte (Ne.symm plain.1), ih plain.2, List.cons_append]

theorem strip_keeping_sequence (mode : StripFlag) (rest : Bytes) :
    ∃ extra, stripControlSequence (stripKeeping mode (escChr :: rest)) =
        extra ++ stripControlSequence (stripKeeping mode
          (rest.drop (skipControlSequence rest - 1))) ∧
      (extra = [] ↔ isMixed rest = false) := by
  obtain ⟨extra, behind, plain, empty⟩ := leftover_plain rest
  refine ⟨extra, ?_, empty⟩
  have passes : stripControlSequence (stripKeeping mode (escChr :: rest)) =
      stripControlSequence (stripKeeping mode (rest.drop (scanControlSequence rest).last)) := by
    rw [keeping_sequence]
    split
    · rename_i keeps
      obtain ⟨sequence, tail, same, kept, last⟩ := kept_whole keeps
      have taken : (escChr :: rest).take ((scanControlSequence rest).last + 1) =
          escChr :: sequence := by rw [last, same, List.take_succ_cons, List.take_left]
      rw [taken, List.cons_append, strip_kept kept]
    · rw [List.nil_append]
  rw [passes, behind, keeping_plain mode plain, strip_front plain]

theorem strip_keeping_length (mode : StripFlag) (src : Bytes) :
    (stripControlSequence src).length ≤
      (stripControlSequence (stripKeeping mode src)).length := by
  induction length : src.length using Nat.strong_induction_on generalizing src with
  | _ size ih =>
      cases src with
      | nil => rw [keeping_nil]
      | cons byte rest =>
          rw [List.length_cons] at length
          by_cases esc : byte = escChr
          · subst esc
            obtain ⟨extra, same, _⟩ := strip_keeping_sequence mode rest
            have shorter : (rest.drop (skipControlSequence rest - 1)).length ≤ rest.length := by
              rw [List.length_drop]
              omega
            rw [same, strip_sequence, List.length_append]
            have held := ih _ (by omega) (rest.drop (skipControlSequence rest - 1)) rfl
            omega
          · rw [strip_byte esc, keeping_byte mode esc, strip_byte esc, List.length_cons,
              List.length_cons]
            exact Nat.succ_le_succ (ih _ (by omega) rest rfl)

theorem strip_keeping_iff (mode : StripFlag) (src : Bytes) :
    stripControlSequence (stripKeeping mode src) = stripControlSequence src ↔ Regular src := by
  induction length : src.length using Nat.strong_induction_on generalizing src with
  | _ size ih =>
      cases src with
      | nil => exact ⟨fun _ => .nil, fun _ => by rw [keeping_nil]⟩
      | cons byte rest =>
          rw [List.length_cons] at length
          by_cases esc : byte = escChr
          · subst esc
            obtain ⟨extra, same, empty⟩ := strip_keeping_sequence mode rest
            have shorter : (rest.drop (skipControlSequence rest - 1)).length ≤ rest.length := by
              rw [List.length_drop]
              omega
            have held := ih _ (by omega) (rest.drop (skipControlSequence rest - 1)) rfl
            rw [same, strip_sequence, regular_sequence, ← empty, ← held]
            constructor
            · intro equal
              have least := strip_keeping_length mode (rest.drop (skipControlSequence rest - 1))
              have lengths := congrArg List.length equal
              rw [List.length_append] at lengths
              have none : extra = [] := List.length_eq_zero_iff.1 (by omega)
              rw [none, List.nil_append] at equal
              exact ⟨none, equal⟩
            · rintro ⟨rfl, equal⟩
              rw [List.nil_append, equal]
          · rw [strip_byte esc, keeping_byte mode esc, strip_byte esc, regular_byte esc,
              List.cons.injEq, ← ih _ (by omega) rest rfl, eq_self, true_and]

/-! ### The strippers agree -/

theorem strip_idempotent (mode : StripFlag) (src : Bytes) :
    stripControlSequenceEx (stripControlSequenceEx src mode) mode =
      stripControlSequenceEx src mode := by
  cases mode with
  | stripAll => exact strip_of_plain (strip_plain src)
  | onlyColor => exact keeping_idempotent .onlyColor src
  | noReload => exact keeping_idempotent .noReload src

/-- Where a sequence ends, what a mode lets through, and what a second pass changes. -/
theorem strippers_agree (src : Bytes) :
    ((∀ rest, src = escChr :: rest →
        (scanControlSequence rest).last + 1 = skipControlSequence rest ∧
        (scanControlSequence rest).last < src.length ∧ skipControlSequence rest ≤ src.length) ∧
      (∀ mode, stripControlSequenceEx (stripControlSequenceEx src mode) .stripAll =
        stripControlSequenceEx src .stripAll) ∧
      KeptText .onlyColor (stripControlSequenceEx src .onlyColor) ∧
      (∀ mode, stripControlSequenceEx (stripControlSequenceEx src mode) mode =
        stripControlSequenceEx src mode)) ↔ Regular src := by
  constructor
  · rintro ⟨_, same, _, _⟩
    exact (strip_keeping_iff .onlyColor src).1 (same .onlyColor)
  · intro regular
    refine ⟨?_, ?_, keeping_text .onlyColor src, fun mode => strip_idempotent mode src⟩
    · rintro rest rfl
      have range := skip_range rest
      have plain := ((regular_sequence rest).1 regular).1
      have same := scan_skip_plain plain
      rw [List.length_cons]
      omega
    · intro mode
      cases mode with
      | stripAll => exact strip_of_plain (strip_plain src)
      | onlyColor => exact (strip_keeping_iff .onlyColor src).2 regular
      | noReload => exact (strip_keeping_iff .noReload src).2 regular

/-- `ESC [ SP 1 m` and a letter: one scanner takes the blank for the end. -/
theorem mixed_sequence_differs :
    let src : Bytes := [0x1B, 0x5B, 0x20, 0x31, 0x6D, 0x58]
    (scanControlSequence src.tail).last + 1 ≠ skipControlSequence src.tail ∧
      stripControlSequenceEx (stripControlSequenceEx src .onlyColor) .stripAll = [0x31, 0x6D, 0x58] ∧
      stripControlSequenceEx src .stripAll = [0x58] := by
  decide +kernel

end Pttbbs.Common.ControlSeq
