/-
The bytes of an encoded text that its readers look for.

ASCII is written as it is, and the other codes have no control bytes.  So an encoded text has its
line breaks and separators where the text has them.
-/

import Pttbbs.PostSvc.Render

namespace Pttbbs.PostSvc

open Pttbbs.Lib

structure PlainTable (table : Nat → UInt16) : Prop where
  ascii : ∀ rune, rune < 0x80 → table rune = UInt16.ofNat rune
  codes : ∀ rune, 0x80 ≤ rune → rune < 0x10000 → (table rune).toNat = 0 ∨
    (0x20 ≤ (table rune).toNat % 256 ∧
      (0xff < (table rune).toNat → 0x20 ≤ (table rune).toNat / 256))

/-! ### Runes -/

theorem decodeRune_of_ascii {first : UInt8} (ascii : first.toNat < 0x80) (rest : Bytes) :
    decodeRune (first :: rest) = (first.toNat, 1) := by
  simp only [decodeRune, if_pos ascii]

theorem decodeRune_wide {first : UInt8} (wide : 0x80 ≤ first.toNat) (rest : Bytes) :
    0x80 ≤ (decodeRune (first :: rest)).1 := by
  rcases rest with _ | ⟨second, _ | ⟨third, _ | ⟨fourth, others⟩⟩⟩
  all_goals
    simp only [decodeRune, if_neg (Nat.not_lt.2 wide), runeError, inRange, Bool.and_eq_true,
      decide_eq_true_eq]
    split_ifs <;> dsimp only <;> omega

theorem mem_of_mem_runesFrom {rune : Nat × Nat} {skip : Nat} {text : Bytes}
    (member : rune ∈ runesFrom skip text) (small : rune.1 < 0x80) :
    ∃ byte ∈ text, rune = (byte.toNat, 1) := by
  induction text generalizing skip with
  | nil => cases skip <;> cases member
  | cons first rest ih =>
      cases skip with
      | succ skip =>
          obtain ⟨byte, inside, same⟩ := @ih skip member
          exact ⟨byte, List.mem_cons_of_mem _ inside, same⟩
      | zero =>
          rcases List.mem_cons.1 member with same | later
          · have ascii : first.toNat < 0x80 := by
              by_contra wide
              have above := decodeRune_wide (Nat.not_lt.1 wide) rest
              rw [← same] at above
              omega
            exact ⟨first, List.mem_cons_self, same.trans (decodeRune_of_ascii ascii rest)⟩
          · obtain ⟨byte, inside, same⟩ := ih later
            exact ⟨byte, List.mem_cons_of_mem _ inside, same⟩

section Table

variable {table : Nat → UInt16}

theorem encodeRune_ascii (ascii : ∀ rune, rune < 0x80 → table rune = UInt16.ofNat rune)
    {byte : UInt8} (low : byte.toNat < 0x80) (some : byte ≠ 0) :
    encodeRune table (byte.toNat, 1) = [byte] := by
  have notError : (byte.toNat = runeError && 1 = 1 : Bool) = false := by
    have apart : byte.toNat ≠ runeError := by
      unfold runeError
      omega
    simp [apart]
  have code : (table byte.toNat).toNat = byte.toNat := by
    rw [ascii _ low, UInt16.toNat_ofNat']
    exact Nat.mod_eq_of_lt (by omega)
  have positive : byte.toNat ≠ 0 := fun zero => some (UInt8.toNat_inj.1 zero)
  unfold encodeRune
  rw [notError, if_neg (by simp)]
  dsimp only
  have small : byte.toNat < 0x10000 := by omega
  simp only [if_pos small, code, if_neg positive]
  rw [if_neg (by omega), UInt8.ofNat_toNat]

theorem encodeRune_zero (plain : PlainTable table) (size : Nat) :
    encodeRune table (0, size) = [63] := by
  have code : (table 0).toNat = 0 := by
    rw [plain.ascii 0 (by omega)]
    rfl
  simp [encodeRune, runeError, code]

theorem encodeRune_wide (plain : PlainTable table) {rune : Nat × Nat} (wide : 0x80 ≤ rune.1) :
    ∀ byte ∈ encodeRune table rune, 0x20 ≤ byte.toNat := by
  intro byte member
  unfold encodeRune at member
  split at member
  · rw [List.mem_singleton.1 member]
    decide
  · have codes := plain.codes rune.1 wide
    have bound := (table rune.1).toNat_lt
    dsimp only at member
    generalize (table rune.1).toNat = code at *
    by_cases small : rune.1 < 0x10000
    · rw [if_pos small] at member
      by_cases zero : code = 0
      · rw [if_pos zero, if_neg (by omega)] at member
        rw [List.mem_singleton.1 member]
        decide
      · obtain ⟨second, first⟩ := (codes small).resolve_left zero
        rw [if_neg zero] at member
        split at member
        · rename_i double
          have first := first double
          rcases List.mem_pair.1 member with rfl | rfl
          · rw [UInt8.toNat_ofNat']
            omega
          · rw [UInt8.toNat_ofNat']
            omega
        · rw [List.mem_singleton.1 member, UInt8.toNat_ofNat']
          omega
    · rw [if_neg small, if_pos rfl, if_neg (by omega)] at member
      rw [List.mem_singleton.1 member]
      decide

theorem encodeRune_ne_nil (rune : Nat × Nat) : encodeRune table rune ≠ [] := by
  unfold encodeRune
  dsimp only
  split_ifs <;> simp

/-! ### Texts -/

theorem encodeBig5_append_ascii (plain : PlainTable table) {byte : UInt8}
    (low : byte.toNat < 0x80) (some : byte ≠ 0) (left right : Bytes) :
    encodeBig5 table (left ++ byte :: right) =
      encodeBig5 table left ++ byte :: encodeBig5 table right := by
  rw [encodeBig5, runes_append_ascii low, List.flatMap_append, List.flatMap_cons,
    encodeRune_ascii plain.ascii low some]
  rfl

theorem mem_of_mem_encodeBig5 (plain : PlainTable table) {byte : UInt8} (low : byte.toNat < 0x20)
    {text : Bytes} (member : byte ∈ encodeBig5 table text) : byte ∈ text ∧ byte ≠ 0 := by
  obtain ⟨rune, read, written⟩ := List.mem_flatMap.1 member
  by_cases small : rune.1 < 0x80
  · obtain ⟨source, inside, rfl⟩ := mem_of_mem_runesFrom read small
    by_cases zero : source = 0
    · subst zero
      rw [show (0 : UInt8).toNat = 0 from rfl, encodeRune_zero plain] at written
      rw [List.mem_singleton.1 written] at low
      exact absurd low (by decide)
    · rw [encodeRune_ascii plain.ascii small zero] at written
      rw [List.mem_singleton.1 written]
      exact ⟨inside, zero⟩
  · have printable := encodeRune_wide plain (Nat.not_lt.1 small) byte written
    omega

end Table

variable {cfg : Config}

theorem encodeText_append_ascii (plain : PlainTable cfg.u2bTable) {byte : UInt8}
    (low : byte.toNat < 0x80) (some : byte ≠ 0) (left right : Bytes) :
    cfg.encodeText (left ++ byte :: right) =
      cfg.encodeText left ++ byte :: cfg.encodeText right := by
  unfold Config.encodeText
  split
  · exact encodeBig5_append_ascii plain low some left right
  · rfl

@[simp] theorem encodeText_nil : cfg.encodeText [] = [] := by
  unfold Config.encodeText
  split <;> rfl

theorem encodeText_cons_ascii (plain : PlainTable cfg.u2bTable) {byte : UInt8}
    (low : byte.toNat < 0x80) (some : byte ≠ 0) (rest : Bytes) :
    cfg.encodeText (byte :: rest) = byte :: cfg.encodeText rest := by
  have whole := encodeText_append_ascii plain low some [] rest
  rwa [List.nil_append, encodeText_nil, List.nil_append] at whole

theorem encodeText_of_ascii (plain : PlainTable cfg.u2bTable) {text : Bytes}
    (ascii : ∀ byte ∈ text, byte.toNat < 0x80 ∧ byte ≠ 0) (rest : Bytes) :
    cfg.encodeText (text ++ rest) = text ++ cfg.encodeText rest := by
  induction text with
  | nil => rfl
  | cons byte text ih =>
      rw [List.forall_mem_cons] at ascii
      rw [List.cons_append, encodeText_cons_ascii plain ascii.1.1 ascii.1.2, ih ascii.2]
      rfl

theorem encodeText_eq_nil {text : Bytes} : cfg.encodeText text = [] ↔ text = [] := by
  refine ⟨fun empty => ?_, fun empty => by rw [empty, encodeText_nil]⟩
  unfold Config.encodeText at empty
  split at empty
  · cases text with
    | nil => rfl
    | cons byte rest =>
        have written : encodeRune cfg.u2bTable (decodeRune (byte :: rest)) = [] :=
          (List.append_eq_nil_iff.1 empty).1
        exact absurd written (encodeRune_ne_nil _)
  · exact empty

theorem newline_mem_encodeText (plain : PlainTable cfg.u2bTable) {text : Bytes} :
    newline ∈ cfg.encodeText text ↔ newline ∈ text := by
  constructor
  · intro member
    unfold Config.encodeText at member
    split at member
    · exact (mem_of_mem_encodeBig5 plain (by decide) member).1
    · exact member
  · intro member
    obtain ⟨left, right, rfl⟩ := List.append_of_mem member
    rw [encodeText_append_ascii plain (by decide) (by decide)]
    exact List.mem_append_right _ List.mem_cons_self

theorem zero_mem_encodeText (plain : PlainTable cfg.u2bTable) {text : Bytes} :
    0 ∈ cfg.encodeText text ↔ cfg.isBig5 = false ∧ 0 ∈ text := by
  unfold Config.encodeText
  cases big5 : cfg.isBig5 with
  | false => simp
  | true =>
      simp only [if_true, Bool.true_eq_false, false_and, iff_false]
      exact fun member => (mem_of_mem_encodeBig5 plain (by decide) member).2 rfl

end Pttbbs.PostSvc
