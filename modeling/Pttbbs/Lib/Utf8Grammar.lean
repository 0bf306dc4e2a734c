/-
The grammar of UTF-8.

Well-formed sequences are those of the table of the standard: no overlong forms, no
surrogates and nothing above U+10FFFF.  They are the encodings of the scalar values.
-/

import Pttbbs.Lib.Utf8
import Mathlib.Data.List.Infix

namespace Pttbbs.Lib

theorem inRange_iff (low high : Nat) (byte : UInt8) :
    inRange low high byte = true ↔ low ≤ byte.toNat ∧ byte.toNat ≤ high := by
  rw [inRange, Bool.and_eq_true, decide_eq_true_eq, decide_eq_true_eq]

def isTail (byte : UInt8) : Bool := inRange 0x80 0xBF byte

theorem isTail_iff (byte : UInt8) : isTail byte = true ↔ 0x80 ≤ byte.toNat ∧ byte.toNat ≤ 0xBF :=
  inRange_iff _ _ _

def wellFormed : Bytes → Bool
  | [a] => inRange 0x00 0x7F a
  | [a, b] => inRange 0xC2 0xDF a && isTail b
  | [a, b, c] =>
      (inRange 0xE0 0xE0 a && inRange 0xA0 0xBF b || inRange 0xE1 0xEC a && isTail b ||
        inRange 0xED 0xED a && inRange 0x80 0x9F b || inRange 0xEE 0xEF a && isTail b) && isTail c
  | [a, b, c, d] =>
      (inRange 0xF0 0xF0 a && inRange 0x90 0xBF b || inRange 0xF1 0xF3 a && isTail b ||
        inRange 0xF4 0xF4 a && inRange 0x80 0x8F b) && isTail c && isTail d
  | _ => false

def sequenceLength (lead : UInt8) : Nat :=
  if lead.toNat < 0x80 then 1
  else if lead.toNat < 0xE0 then 2
  else if lead.toNat < 0xF0 then 3
  else 4

def payload (lead : UInt8) : Nat :=
  if lead.toNat < 0x80 then lead.toNat
  else if lead.toNat < 0xE0 then lead.toNat % 32
  else if lead.toNat < 0xF0 then lead.toNat % 16
  else lead.toNat % 8

def codePoint : Bytes → Nat
  | [] => 0
  | lead :: rest => rest.foldl (fun value byte => value * 64 + byte.toNat % 64) (payload lead)

theorem codePoint_concat (lead : UInt8) (rest : Bytes) (byte : UInt8) :
    codePoint (lead :: rest ++ [byte]) = codePoint (lead :: rest) * 64 + byte.toNat % 64 := by
  change (rest ++ [byte]).foldl _ _ = _
  rw [List.foldl_append]
  rfl

/-- A sequence that goes on: a first byte and some, but not all, of its continuation bytes. -/
def isOpen : Bytes → Bool
  | [] => false
  | lead :: rest =>
      inRange 0xC2 0xF4 lead && rest.all isTail && decide (rest.length + 1 < sequenceLength lead)

theorem isOpen_cons (lead : UInt8) (rest : Bytes) :
    isOpen (lead :: rest) = true ↔ (0xC2 ≤ lead.toNat ∧ lead.toNat ≤ 0xF4) ∧
      (∀ byte ∈ rest, isTail byte = true) ∧ rest.length + 1 < sequenceLength lead := by
  rw [isOpen, Bool.and_eq_true, Bool.and_eq_true, inRange_iff, List.all_eq_true,
    decide_eq_true_eq, and_assoc]

theorem sequenceLength_two {lead : UInt8} (high : 0x80 ≤ lead.toNat) (low : lead.toNat < 0xE0) :
    sequenceLength lead = 2 := by
  rw [sequenceLength, if_neg (by omega), if_pos low]

theorem sequenceLength_three {lead : UInt8} (high : 0xE0 ≤ lead.toNat) (low : lead.toNat < 0xF0) :
    sequenceLength lead = 3 := by
  rw [sequenceLength, if_neg (by omega), if_neg (by omega), if_pos low]

theorem sequenceLength_four {lead : UInt8} (high : 0xF0 ≤ lead.toNat) :
    sequenceLength lead = 4 := by
  rw [sequenceLength, if_neg (by omega), if_neg (by omega), if_neg (by omega)]

theorem sequenceLength_le (lead : UInt8) : sequenceLength lead ≤ 4 := by
  unfold sequenceLength
  split
  · omega
  · split
    · omega
    · split <;> omega

def IsScalar (value : Nat) : Prop := value < 0xD800 ∨ 0xDFFF < value ∧ value ≤ 0x10FFFF

instance (value : Nat) : Decidable (IsScalar value) := inferInstanceAs (Decidable (_ ∨ _))

def encodeUtf8 (value : Nat) : Bytes :=
  if value < 0x80 then [UInt8.ofNat value]
  else if value < 0x800 then [UInt8.ofNat (0xC0 + value / 64), UInt8.ofNat (0x80 + value % 64)]
  else if value < 0x10000 then
    [UInt8.ofNat (0xE0 + value / 4096), UInt8.ofNat (0x80 + value / 64 % 64),
      UInt8.ofNat (0x80 + value % 64)]
  else
    [UInt8.ofNat (0xF0 + value / 262144), UInt8.ofNat (0x80 + value / 4096 % 64),
      UInt8.ofNat (0x80 + value / 64 % 64), UInt8.ofNat (0x80 + value % 64)]

theorem toNat_ofNat_lt {value : Nat} (small : value < 256) : (UInt8.ofNat value).toNat = value := by
  rw [UInt8.toNat_ofNat']
  exact Nat.mod_eq_of_lt small

/-! ### What the bytes of a sequence add up to -/

theorem wellFormed_one (a : UInt8) : wellFormed [a] = true ↔ a.toNat < 0x80 := by
  rw [wellFormed, inRange_iff]
  omega

theorem wellFormed_two (a b : UInt8) :
    wellFormed [a, b] = true ↔ (0xC2 ≤ a.toNat ∧ a.toNat < 0xE0) ∧ isTail b = true := by
  rw [wellFormed, Bool.and_eq_true, inRange_iff, Nat.lt_succ_iff]

theorem wellFormed_three (a b c : UInt8) :
    wellFormed [a, b, c] = true ↔
      ((0xE0 ≤ a.toNat ∧ a.toNat < 0xF0) ∧ isTail b = true ∧ isTail c = true) ∧
        0x20 ≤ a.toNat % 16 * 64 + b.toNat % 64 ∧
        (a.toNat % 16 * 64 + b.toNat % 64 < 0x360 ∨ 0x380 ≤ a.toNat % 16 * 64 + b.toNat % 64) := by
  simp only [wellFormed, Bool.and_eq_true, Bool.or_eq_true, inRange_iff, isTail_iff]
  constructor
  · rintro ⟨((first | middle) | surrogate) | last, third⟩
    · omega
    · omega
    · omega
    · omega
  · rintro ⟨⟨lead, second, third⟩, large, outside⟩
    refine ⟨?_, third⟩
    by_cases first : a.toNat = 0xE0
    · exact .inl (.inl (.inl (by omega)))
    · by_cases surrogate : a.toNat = 0xED
      · exact .inl (.inr (by omega))
      · by_cases low : a.toNat < 0xED
        · exact .inl (.inl (.inr (by omega)))
        · exact .inr (by omega)

theorem wellFormed_four (a b c d : UInt8) :
    wellFormed [a, b, c, d] = true ↔
      ((0xF0 ≤ a.toNat ∧ a.toNat ≤ 0xF4) ∧ isTail b = true ∧ isTail c = true ∧ isTail d = true) ∧
        0x10 ≤ a.toNat % 8 * 64 + b.toNat % 64 ∧ a.toNat % 8 * 64 + b.toNat % 64 < 0x110 := by
  simp only [wellFormed, Bool.and_eq_true, Bool.or_eq_true, inRange_iff, isTail_iff]
  constructor
  · rintro ⟨⟨(first | middle) | last, third⟩, fourth⟩
    · omega
    · omega
    · omega
  · rintro ⟨⟨lead, second, third, fourth⟩, large, small⟩
    refine ⟨⟨?_, third⟩, fourth⟩
    by_cases first : a.toNat = 0xF0
    · exact .inl (.inl (by omega))
    · by_cases last : a.toNat = 0xF4
      · exact .inr (by omega)
      · exact .inl (.inr (by omega))

section Payload

variable {a : UInt8}

theorem payload_two (high : 0x80 ≤ a.toNat) (low : a.toNat < 0xE0) : payload a = a.toNat % 32 := by
  rw [payload, if_neg (by omega), if_pos low]

theorem payload_three (high : 0xE0 ≤ a.toNat) (low : a.toNat < 0xF0) :
    payload a = a.toNat % 16 := by
  rw [payload, if_neg (by omega), if_neg (by omega), if_pos low]

theorem payload_four (high : 0xF0 ≤ a.toNat) : payload a = a.toNat % 8 := by
  rw [payload, if_neg (by omega), if_neg (by omega), if_neg (by omega)]

end Payload

theorem codePoint_two (a b : UInt8) : codePoint [a, b] = payload a * 64 + b.toNat % 64 := rfl

theorem codePoint_three (a b c : UInt8) :
    codePoint [a, b, c] = (payload a * 64 + b.toNat % 64) * 64 + c.toNat % 64 := rfl

theorem codePoint_four (a b c d : UInt8) :
    codePoint [a, b, c, d] =
      ((payload a * 64 + b.toNat % 64) * 64 + c.toNat % 64) * 64 + d.toNat % 64 := rfl

theorem tail_ofNat {digit : Nat} (small : digit < 64) :
    isTail (UInt8.ofNat (0x80 + digit)) = true ∧
      (UInt8.ofNat (0x80 + digit)).toNat % 64 = digit := by
  have value := toNat_ofNat_lt (show 0x80 + digit < 256 by omega)
  rw [isTail_iff, value]
  omega

theorem ofNat_tail {byte : UInt8} (tail : isTail byte = true) :
    UInt8.ofNat (0x80 + byte.toNat % 64) = byte := by
  have range := (isTail_iff byte).mp tail
  have value : 0x80 + byte.toNat % 64 = byte.toNat := by omega
  rw [value, UInt8.ofNat_toNat]

theorem eq_ofNat {byte : UInt8} {value : Nat} (same : byte.toNat = value) :
    UInt8.ofNat value = byte := by
  rw [← same]
  exact UInt8.ofNat_toNat

theorem mod_lt_64 (value : Nat) : value % 64 < 64 := Nat.mod_lt _ (by decide)

theorem digit_div {high low : Nat} (small : low < 64) : (high * 64 + low) / 64 = high := by omega

theorem digit_mod {high low : Nat} (small : low < 64) : (high * 64 + low) % 64 = low := by omega

theorem div_mod_digit (value : Nat) : value / 64 * 64 + value % 64 = value := by omega

theorem wellFormed_encodeUtf8 {value : Nat} (scalar : IsScalar value) :
    wellFormed (encodeUtf8 value) = true ∧ codePoint (encodeUtf8 value) = value := by
  unfold encodeUtf8
  obtain ⟨thirdTail, third⟩ := tail_ofNat (mod_lt_64 value)
  obtain ⟨secondTail, second⟩ := tail_ofNat (mod_lt_64 (value / 64))
  split
  · rename_i one
    have first := toNat_ofNat_lt (show value < 256 by omega)
    rw [wellFormed_one, first]
    exact ⟨one, (if_pos (first.symm ▸ one)).trans first⟩
  · split
    · have first := toNat_ofNat_lt (show 0xC0 + value / 64 < 256 by omega)
      rw [wellFormed_two, codePoint_two, third, payload_two, first]
      · exact ⟨⟨by omega, thirdTail⟩, by omega⟩
      · omega
      · omega
    · split
      · have first := toNat_ofNat_lt (show 0xE0 + value / 4096 < 256 by omega)
        have digits : (0xE0 + value / 4096) % 16 * 64 + value / 64 % 64 = value / 64 := by omega
        rw [wellFormed_three, codePoint_three, second, third, payload_three, first, digits,
          div_mod_digit]
        · refine ⟨⟨⟨by omega, secondTail, thirdTail⟩, by omega, ?_⟩, rfl⟩
          rcases scalar with low | high
          · exact .inl (by omega)
          · exact .inr (by omega)
        · omega
        · omega
      · have bound : value ≤ 0x10FFFF := by
          rcases scalar with low | high
          · omega
          · exact high.2
        obtain ⟨firstTail, upper⟩ := tail_ofNat (mod_lt_64 (value / 4096))
        have first := toNat_ofNat_lt (show 0xF0 + value / 262144 < 256 by omega)
        have digits : (0xF0 + value / 262144) % 8 * 64 + value / 4096 % 64 = value / 4096 := by
          omega
        have lower : value / 4096 * 64 + value / 64 % 64 = value / 64 := by omega
        rw [wellFormed_four, codePoint_four, upper, second, third, payload_four, first, digits,
          lower, div_mod_digit]
        · exact ⟨⟨⟨by omega, firstTail, secondTail, thirdTail⟩, by omega, by omega⟩, rfl⟩
        · omega

theorem decodeRune_of_wellFormed {bytes : Bytes} (formed : wellFormed bytes = true) (rest : Bytes) :
    decodeRune (bytes ++ rest) = (codePoint bytes, bytes.length) := by
  match bytes with
  | [] => cases formed
  | [a] =>
      rw [wellFormed_one] at formed
      have value : codePoint [a] = a.toNat := if_pos formed
      rw [value]
      exact if_pos formed
  | [a, b] =>
      obtain ⟨lead, tail⟩ := (wellFormed_two a b).mp formed
      have range := (isTail_iff b).mp tail
      have same : (a.toNat - 0xc0) * 64 + (b.toNat - 0x80) = a.toNat % 32 * 64 + b.toNat % 64 := by
        omega
      rw [codePoint_two, payload_two (by omega) lead.2]
      simp only [List.cons_append, List.nil_append, decodeRune]
      rw [if_neg (by omega), if_neg (by omega), if_pos lead.2]
      exact (if_pos tail).trans (Prod.ext same rfl)
  | [a, b, c] =>
      obtain ⟨⟨lead, second, third⟩, large, outside⟩ := (wellFormed_three a b c).mp formed
      have bRange := (isTail_iff b).mp second
      have cRange := (isTail_iff c).mp third
      have inside : inRange (if a.toNat = 0xe0 then 0xa0 else 0x80)
          (if a.toNat = 0xed then 0x9f else 0xbf) b = true := by
        rw [inRange_iff]
        split_ifs <;> omega
      have same : (a.toNat - 0xe0) * 4096 + (b.toNat - 0x80) * 64 + (c.toNat - 0x80) =
          (a.toNat % 16 * 64 + b.toNat % 64) * 64 + c.toNat % 64 := by
        clear outside large
        omega
      rw [codePoint_three, payload_three lead.1 lead.2]
      simp only [List.cons_append, List.nil_append, decodeRune]
      rw [if_neg (by omega), if_neg (by omega), if_neg (by omega), if_pos lead.2, inside,
        Bool.true_and]
      exact (if_pos third).trans (Prod.ext same rfl)
  | [a, b, c, d] =>
      obtain ⟨⟨lead, second, third, fourth⟩, large, small⟩ := (wellFormed_four a b c d).mp formed
      have bRange := (isTail_iff b).mp second
      have cRange := (isTail_iff c).mp third
      have dRange := (isTail_iff d).mp fourth
      have inside : inRange (if a.toNat = 0xf0 then 0x90 else 0x80)
          (if a.toNat = 0xf4 then 0x8f else 0xbf) b = true := by
        rw [inRange_iff]
        split_ifs <;> omega
      have same : (a.toNat - 0xf0) * 262144 + (b.toNat - 0x80) * 4096 + (c.toNat - 0x80) * 64 +
          (d.toNat - 0x80) =
          ((a.toNat % 8 * 64 + b.toNat % 64) * 64 + c.toNat % 64) * 64 + d.toNat % 64 := by
        clear small large
        omega
      have both : (isTail c && isTail d) = true := by rw [third, fourth, Bool.true_and]
      rw [codePoint_four, payload_four lead.1]
      simp only [List.cons_append, List.nil_append, decodeRune]
      rw [if_neg (by omega), if_neg (by omega), if_neg (by omega), if_neg (by omega),
        if_pos (by omega), inside, Bool.true_and]
      exact (if_pos both).trans (Prod.ext same rfl)
  | _ :: _ :: _ :: _ :: _ :: _ => cases formed

theorem bytes_of_wellFormed {bytes : Bytes} (formed : wellFormed bytes = true) :
    ∃ lead rest, bytes = lead :: rest ∧ isTail lead = false ∧ (∀ byte ∈ rest, isTail byte = true) ∧
      (rest ≠ [] → 0x80 ≤ lead.toNat) := by
  match bytes, formed with
  | [a], formed =>
      have range := (wellFormed_one a).mp formed
      refine ⟨a, [], rfl, ?_, by simp, by simp⟩
      rw [Bool.eq_false_iff, ne_eq, isTail_iff]
      omega
  | [a, b], formed =>
      obtain ⟨range, tail⟩ := (wellFormed_two a b).mp formed
      refine ⟨a, [b], rfl, ?_, by simpa using tail, fun _ => by omega⟩
      rw [Bool.eq_false_iff, ne_eq, isTail_iff]
      omega
  | [a, b, c], formed =>
      obtain ⟨⟨range, tails⟩, _⟩ := (wellFormed_three a b c).mp formed
      refine ⟨a, [b, c], rfl, ?_, by simpa using tails, fun _ => by omega⟩
      rw [Bool.eq_false_iff, ne_eq, isTail_iff]
      omega
  | [a, b, c, d], formed =>
      obtain ⟨⟨range, tails⟩, _⟩ := (wellFormed_four a b c d).mp formed
      refine ⟨a, [b, c, d], rfl, ?_, by simpa using tails, fun _ => by omega⟩
      rw [Bool.eq_false_iff, ne_eq, isTail_iff]
      omega

theorem high_of_wellFormed {bytes : Bytes} (formed : wellFormed bytes = true)
    (longer : 1 < bytes.length) : ∀ byte ∈ bytes, 0x80 ≤ byte.toNat := by
  obtain ⟨lead, rest, rfl, _, tails, high⟩ := bytes_of_wellFormed formed
  intro byte member
  rcases List.mem_cons.mp member with rfl | behind
  · exact high (by rintro rfl; exact absurd longer (by simp))
  · exact ((isTail_iff byte).mp (tails byte behind)).1

theorem encodeUtf8_codePoint {bytes : Bytes} (formed : wellFormed bytes = true) :
    IsScalar (codePoint bytes) ∧ encodeUtf8 (codePoint bytes) = bytes := by
  unfold IsScalar
  match bytes, formed with
  | [a], formed =>
      have range := (wellFormed_one a).mp formed
      have value : codePoint [a] = a.toNat := if_pos range
      rw [value, encodeUtf8, if_pos range, eq_ofNat rfl]
      exact ⟨by omega, rfl⟩
  | [a, b], formed =>
      obtain ⟨lead, tail⟩ := (wellFormed_two a b).mp formed
      have small := mod_lt_64 b.toNat
      rw [codePoint_two, payload_two (by omega) lead.2, encodeUtf8, if_neg (by omega),
        if_pos (by omega), digit_div small, digit_mod small, ofNat_tail tail,
        eq_ofNat (show a.toNat = _ by omega)]
      exact ⟨by omega, rfl⟩
  | [a, b, c], formed =>
      obtain ⟨⟨lead, second, third⟩, large, outside⟩ := (wellFormed_three a b c).mp formed
      have bSmall := mod_lt_64 b.toNat
      have cSmall := mod_lt_64 c.toNat
      have first : a.toNat = 0xE0 + a.toNat % 16 := by omega
      rw [codePoint_three, payload_three lead.1 lead.2]
      have upper : a.toNat % 16 * 64 + b.toNat % 64 < 0x400 := by omega
      have four : ((a.toNat % 16 * 64 + b.toNat % 64) * 64 + c.toNat % 64) / 4096 =
          a.toNat % 16 := by
        rw [← Nat.div_div_eq_div_mul _ 64 64, digit_div cSmall, digit_div bSmall]
      rw [encodeUtf8, four, digit_div cSmall, digit_mod cSmall, digit_mod bSmall,
        ofNat_tail second, ofNat_tail third, eq_ofNat first]
      generalize a.toNat % 16 * 64 + b.toNat % 64 = high at large outside upper ⊢
      rw [if_neg (by omega), if_neg (by omega), if_pos (by omega)]
      exact ⟨by omega, rfl⟩
  | [a, b, c, d], formed =>
      obtain ⟨⟨lead, second, third, fourth⟩, large, small⟩ := (wellFormed_four a b c d).mp formed
      have bSmall := mod_lt_64 b.toNat
      have cSmall := mod_lt_64 c.toNat
      have dSmall := mod_lt_64 d.toNat
      have first : a.toNat = 0xF0 + a.toNat % 8 := by omega
      rw [codePoint_four, payload_four lead.1]
      generalize word : a.toNat % 8 * 64 + b.toNat % 64 = high at large small ⊢
      have four : ((high * 64 + c.toNat % 64) * 64 + d.toNat % 64) / 4096 = high := by
        rw [← Nat.div_div_eq_div_mul _ 64 64, digit_div dSmall, digit_div cSmall]
      have all : ((high * 64 + c.toNat % 64) * 64 + d.toNat % 64) / 262144 = a.toNat % 8 := by
        rw [← Nat.div_div_eq_div_mul _ 4096 64, four, ← word, digit_div bSmall]
      have low : high % 64 = b.toNat % 64 := by rw [← word, digit_mod bSmall]
      rw [encodeUtf8, all, four, low, digit_div dSmall, digit_mod dSmall, digit_mod cSmall,
        ofNat_tail second, ofNat_tail third, ofNat_tail fourth, eq_ofNat first,
        if_neg (by omega), if_neg (by omega), if_neg (by omega)]
      exact ⟨by omega, rfl⟩

/-! ### Where sequences stand in a text -/

def Headed (bytes : Bytes) : Prop :=
  ∃ lead rest, bytes = lead :: rest ∧ isTail lead = false ∧ ∀ byte ∈ rest, isTail byte = true

theorem headed_of_isOpen {bytes : Bytes} (awaits : isOpen bytes = true) : Headed bytes := by
  cases bytes with
  | nil => cases awaits
  | cons lead rest =>
      rw [isOpen_cons] at awaits
      refine ⟨lead, rest, rfl, ?_, awaits.2.1⟩
      rw [Bool.eq_false_iff, ne_eq, isTail_iff]
      omega

theorem headed_of_wellFormed {bytes : Bytes} (formed : wellFormed bytes = true) : Headed bytes := by
  obtain ⟨lead, rest, same, notTail, tails, _⟩ := bytes_of_wellFormed formed
  exact ⟨lead, rest, same, notTail, tails⟩

theorem Headed.suffix_unique {left right text : Bytes} (leftHead : Headed left)
    (rightHead : Headed right) (leftEnds : left <:+ text) (rightEnds : right <:+ text) :
    left = right := by
  have order : ∀ {short long : Bytes}, Headed short → Headed long → short <:+ long →
      short = long := by
    rintro short long ⟨lead, rest, rfl, notTail, _⟩ ⟨head, tails, rfl, _, all⟩ ⟨front, joined⟩
    cases front with
    | nil => exact joined
    | cons first others =>
        injection joined with _ behind
        have member : lead ∈ tails := by
          rw [← behind]
          simp
        rw [all lead member] at notTail
        cases notTail
  rcases List.suffix_or_suffix_of_suffix leftEnds rightEnds with inside | inside
  · exact order leftHead rightHead inside
  · exact (order rightHead leftHead inside).symm

theorem sequenceLength_eq (lead : UInt8) (high : 0x80 ≤ lead.toNat) :
    lead.toNat < 0xE0 ∧ sequenceLength lead = 2 ∨
      (0xE0 ≤ lead.toNat ∧ lead.toNat < 0xF0) ∧ sequenceLength lead = 3 ∨
      0xF0 ≤ lead.toNat ∧ sequenceLength lead = 4 := by
  by_cases two : lead.toNat < 0xE0
  · exact .inl ⟨two, sequenceLength_two high two⟩
  · by_cases three : lead.toNat < 0xF0
    · exact .inr (.inl ⟨⟨not_lt.mp two, three⟩, sequenceLength_three (not_lt.mp two) three⟩)
    · exact .inr (.inr ⟨not_lt.mp three, sequenceLength_four (not_lt.mp three)⟩)

theorem wellFormed_complete {lead byte : UInt8} {rest : Bytes}
    (awaits : isOpen (lead :: rest) = true) (tail : isTail byte = true)
    (last : rest.length + 2 = sequenceLength lead) :
    wellFormed (lead :: rest ++ [byte]) = true ↔
      ¬ (sequenceLength lead = 2 ∧ codePoint (lead :: rest ++ [byte]) < 0x80 ∨
        sequenceLength lead = 3 ∧ (codePoint (lead :: rest ++ [byte]) < 0x800 ∨
          0xD800 ≤ codePoint (lead :: rest ++ [byte]) ∧
            codePoint (lead :: rest ++ [byte]) ≤ 0xDFFF) ∨
        sequenceLength lead = 4 ∧ (codePoint (lead :: rest ++ [byte]) < 0x10000 ∨
          0x10FFFF < codePoint (lead :: rest ++ [byte]))) := by
  rw [isOpen_cons] at awaits
  obtain ⟨leadRange, tails, _⟩ := awaits
  have small := mod_lt_64 byte.toNat
  rcases sequenceLength_eq lead (by omega) with ⟨two, length⟩ | ⟨three, length⟩ | ⟨four, length⟩
  · rw [length] at last ⊢
    obtain rfl := List.length_eq_zero_iff.mp (Nat.succ.inj (Nat.succ.inj last))
    rw [List.cons_append, List.nil_append, wellFormed_two, codePoint_two,
      payload_two (by omega) two]
    simp only [tail, two, leadRange.1, and_self, Nat.reduceEqDiff, true_and, false_and, or_false,
      true_iff]
    omega
  · rw [length] at last ⊢
    obtain ⟨b, rfl⟩ := List.length_eq_one_iff.mp (Nat.succ.inj (Nat.succ.inj last))
    have second := tails b List.mem_cons_self
    rw [List.cons_append, List.cons_append, List.nil_append, wellFormed_three, codePoint_three,
      payload_three three.1 three.2]
    generalize lead.toNat % 16 * 64 + b.toNat % 64 = high
    simp only [tail, second, three, and_self, Nat.reduceEqDiff, true_and, false_and, false_or,
      or_false]
    clear leadRange three tails
    omega
  · rw [length] at last ⊢
    obtain ⟨b, c, rfl⟩ := List.length_eq_two.mp (Nat.succ.inj (Nat.succ.inj last))
    have second := tails b List.mem_cons_self
    have third := tails c (List.mem_cons_of_mem _ List.mem_cons_self)
    rw [List.cons_append, List.cons_append, List.cons_append, List.nil_append, wellFormed_four,
      codePoint_four, payload_four four]
    have cSmall := mod_lt_64 c.toNat
    generalize lead.toNat % 8 * 64 + b.toNat % 64 = high
    simp only [tail, second, third, four, leadRange.2, and_self, Nat.reduceEqDiff, true_and,
      false_and, false_or]
    clear leadRange four tails
    omega

/-! ### Reading a text -/

theorem decodeRune_cases (first : UInt8) (rest : Bytes) :
    (∃ bytes behind, wellFormed bytes = true ∧ first :: rest = bytes ++ behind) ∨
      decodeRune (first :: rest) = (runeError, 1) := by
  by_cases ascii : first.toNat < 0x80
  · exact .inl ⟨[first], rest, (wellFormed_one first).mpr ascii, rfl⟩
  by_cases low : first.toNat < 0xc2
  · exact .inr (by simp only [decodeRune, if_neg ascii, if_pos low])
  by_cases two : first.toNat < 0xe0
  · simp only [decodeRune, if_neg ascii, if_neg low, if_pos two]
    rcases rest with _ | ⟨second, behind⟩
    · exact .inr rfl
    · by_cases formed : wellFormed [first, second] = true
      · exact .inl ⟨_, behind, formed, rfl⟩
      · rw [wellFormed_two] at formed
        exact .inr (if_neg fun tail => formed ⟨⟨by omega, two⟩, tail⟩)
  by_cases three : first.toNat < 0xf0
  · simp only [decodeRune, if_neg ascii, if_neg low, if_neg two, if_pos three]
    rcases rest with _ | ⟨second, _ | ⟨third, behind⟩⟩
    · exact .inr rfl
    · exact .inr rfl
    · by_cases formed : wellFormed [first, second, third] = true
      · exact .inl ⟨_, behind, formed, rfl⟩
      · refine .inr (if_neg fun inside => formed ?_)
        rw [wellFormed_three, isTail_iff, isTail_iff]
        simp only [Bool.and_eq_true, inRange_iff] at inside
        split at inside <;> split at inside <;> omega
  by_cases four : first.toNat < 0xf5
  · simp only [decodeRune, if_neg ascii, if_neg low, if_neg two, if_neg three, if_pos four]
    rcases rest with _ | ⟨second, _ | ⟨third, _ | ⟨fourth, behind⟩⟩⟩
    · exact .inr rfl
    · exact .inr rfl
    · exact .inr rfl
    · by_cases formed : wellFormed [first, second, third, fourth] = true
      · exact .inl ⟨_, behind, formed, rfl⟩
      · refine .inr (if_neg fun inside => formed ?_)
        rw [wellFormed_four, isTail_iff, isTail_iff, isTail_iff]
        simp only [Bool.and_eq_true, inRange_iff] at inside
        split at inside <;> split at inside <;> omega
  · exact .inr (by
      simp only [decodeRune, if_neg ascii, if_neg low, if_neg two, if_neg three, if_neg four])

theorem runes_append {bytes : Bytes} (formed : wellFormed bytes = true) (rest : Bytes) :
    runes (bytes ++ rest) = (codePoint bytes, bytes.length) :: runes rest := by
  cases bytes with
  | nil => cases formed
  | cons first others =>
      have read := decodeRune_of_wellFormed formed rest
      rw [List.cons_append] at read
      rw [List.cons_append, runes, runesFrom, read, runesFrom_drop, List.length_cons,
        Nat.add_sub_cancel, List.drop_left]

theorem runes_induction {motive : Bytes → Prop} (nil : motive [])
    (rune : ∀ bytes rest, wellFormed bytes = true → motive rest → motive (bytes ++ rest))
    (error : ∀ byte rest, decodeRune (byte :: rest) = (runeError, 1) →
      runes (byte :: rest) = (runeError, 1) :: runes rest → motive rest → motive (byte :: rest))
    (text : Bytes) : motive text := by
  induction size : text.length using Nat.strong_induction_on generalizing text with
  | _ size ih =>
      cases text with
      | nil => exact nil
      | cons first rest =>
          rw [List.length_cons] at size
          rcases decodeRune_cases first rest with ⟨bytes, behind, formed, whole⟩ | wrong
          · have length := congrArg List.length whole
            rw [List.length_cons, List.length_append] at length
            have some : bytes ≠ [] := by
              rintro rfl
              cases formed
            have long := List.length_pos_of_ne_nil some
            rw [whole]
            exact rune bytes behind formed (ih _ (by omega) behind rfl)
          · refine error first rest wrong ?_ (ih _ (by omega) rest rfl)
            rw [runes, runesFrom, wrong]
            rfl

theorem length_of_codePoint_runeError {bytes : Bytes} (formed : wellFormed bytes = true)
    (error : codePoint bytes = runeError) : bytes.length = 3 := by
  rw [← (encodeUtf8_codePoint formed).2, error]
  rfl

theorem validUtf8_append {bytes : Bytes} (formed : wellFormed bytes = true) (rest : Bytes) :
    validUtf8 (bytes ++ rest) = validUtf8 rest := by
  have known : (!((codePoint bytes = runeError : Bool) && (bytes.length = 1 : Bool))) = true := by
    by_cases error : codePoint bytes = runeError
    · simp [length_of_codePoint_runeError formed error]
    · simp [error]
  rw [validUtf8, runes_append formed, List.all_cons, known, Bool.true_and]
  rfl

theorem validUtf8_error {byte : UInt8} {rest : Bytes}
    (read : runes (byte :: rest) = (runeError, 1) :: runes rest) :
    validUtf8 (byte :: rest) = false := by
  rw [validUtf8, read]
  rfl

/-- `string([]rune(text))`: wrong bytes become U+FFFD. -/
def toValid (text : Bytes) : Bytes := (runes text).flatMap fun rune => encodeUtf8 rune.1

theorem toValid_cases (text : Bytes) :
    validUtf8 text = true ∧ toValid text = text ∨
      validUtf8 text = false ∧ text.length < (toValid text).length := by
  induction text using runes_induction with
  | nil => exact .inl ⟨rfl, rfl⟩
  | rune bytes rest formed ih =>
      have step : toValid (bytes ++ rest) = bytes ++ toValid rest := by
        rw [toValid, runes_append formed, List.flatMap_cons, (encodeUtf8_codePoint formed).2]
        rfl
      rw [validUtf8_append formed, step, List.length_append, List.length_append]
      rcases ih with ⟨valid, same⟩ | ⟨invalid, longer⟩
      · exact .inl ⟨valid, by rw [same]⟩
      · exact .inr ⟨invalid, Nat.add_lt_add_left longer _⟩
  | error byte rest wrong read ih =>
      have step : toValid (byte :: rest) = [0xef, 0xbf, 0xbd] ++ toValid rest := by
        rw [toValid, read]
        rfl
      refine .inr ⟨validUtf8_error read, ?_⟩
      have longer : rest.length ≤ (toValid rest).length := by
        rcases ih with ⟨_, same⟩ | ⟨_, longer⟩
        · rw [same]
        · exact longer.le
      rw [step, List.length_append]
      change rest.length + 1 < 3 + (toValid rest).length
      omega

theorem validUtf8_append_valid {text : Bytes} (valid : validUtf8 text = true) (rest : Bytes) :
    validUtf8 (text ++ rest) = validUtf8 rest := by
  induction text using runes_induction with
  | nil => rfl
  | rune bytes behind formed ih =>
      rw [List.append_assoc, validUtf8_append formed]
      rw [validUtf8_append formed] at valid
      exact ih valid
  | error byte behind wrong read ih =>
      rw [validUtf8_error read] at valid
      cases valid

end Pttbbs.Lib
