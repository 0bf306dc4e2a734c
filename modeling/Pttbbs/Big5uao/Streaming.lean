/-
The transformers as transducers, and the fast paths beside them.
-/

import Pttbbs.Big5uao.Transcoder

namespace Pttbbs.Big5uao

open Pttbbs.Lib
open Pttbbs.PostSvc (encodeRune encodeBig5 encodeRune_ascii)

/-! ### The decoder -/

variable (b2uTable u2bTable : Nat → UInt16)

def decodedCode (code : Nat) : Bytes :=
  let u := (b2uTable code).toNat
  let r := if u = 0 then questionMark.toNat else u
  encodedRune (if runeLen r = none then questionMark.toNat else r)

def decodedFirst : Bytes → Bytes × Nat
  | [] => ([], 0)
  | c :: rest =>
      if c < 0x80 then ([c], 1)
      else
        match rest with
        | [] => ([questionMark], 1)
        | c2 :: _ => if c2 ≥ 0x40 then (decodedCode b2uTable (codeOf c c2), 2) else ([questionMark], 1)

/-- Only a first half at the end waits for more. -/
def decodedWhole : Bytes → Bool
  | [] => true
  | [c] => c < 0x80
  | _ :: _ :: _ => true

theorem encodedRune_length {r len : Nat} (known : runeLen r = some len) :
    (encodedRune r).length = len := by
  have scalar (is : IsScalar r) : encodedRune r = encodeUtf8 r := if_pos is
  unfold IsScalar at scalar
  unfold runeLen at known
  split at known
  · cases known
    rw [scalar (by omega), encodeUtf8, if_pos (by omega)]
    rfl
  · split at known
    · cases known
      rw [scalar (by omega), encodeUtf8, if_neg (by omega), if_pos (by omega)]
      rfl
    · split at known
      · cases known
      · split at known
        · cases known
          rw [scalar (by omega), encodeUtf8, if_neg (by omega), if_neg (by omega),
            if_pos (by omega)]
          rfl
        · split at known
          · cases known
            rw [scalar (by omega), encodeUtf8, if_neg (by omega), if_neg (by omega),
              if_neg (by omega)]
            rfl
          · cases known

theorem runeLen_le {r len : Nat} (small : r < 0x10000) (known : runeLen r = some len) :
    1 ≤ len ∧ len ≤ 3 := by
  unfold runeLen at known
  split at known
  · cases known
    omega
  · split at known
    · cases known
      omega
    · split at known
      · cases known
      · cases known
        omega

theorem decodedCode_length (code : Nat) :
    let u := (b2uTable code).toNat
    let r := if u = 0 then questionMark.toNat else u
    (decodedCode b2uTable code).length = (runeLen r).getD 1 ∧
      1 ≤ (runeLen r).getD 1 ∧ (runeLen r).getD 1 ≤ 3 := by
  intro u r
  have small : r < 0x10000 := by
    have bound := (b2uTable code).toNat_lt
    have mark : questionMark.toNat = 63 := rfl
    simp only [r, u]
    split <;> omega
  change (encodedRune (if runeLen r = none then questionMark.toNat else r)).length = _ ∧ _
  cases known : runeLen r with
  | none => exact ⟨rfl, by decide, by decide⟩
  | some len =>
      rw [if_neg (by simp), encodedRune_length known]
      exact ⟨rfl, runeLen_le small known⟩

def decoder : Transducer UInt8 UInt8 where
  first := decodedFirst b2uTable
  whole := decodedWhole
  longest := 3
  lookahead := 2
  size source some := by
    rcases source with _ | ⟨c, _ | ⟨c2, others⟩⟩
    · exact absurd rfl some
    · rw [decodedFirst]
      split <;> simp
    · rw [decodedFirst]
      split
      · simp
      · split <;> simp
  stays source behind some whole := by
    rcases source with _ | ⟨c, _ | ⟨c2, others⟩⟩
    · exact absurd rfl some
    · have ascii : c < 0x80 := of_decide_eq_true whole
      cases behind with
      | nil => rfl
      | cons c2 others =>
          rw [List.cons_append, List.nil_append, decodedFirst, decodedFirst, if_pos ascii,
            if_pos ascii]
    · rfl
  bound source some := by
    rcases source with _ | ⟨c, _ | ⟨c2, others⟩⟩
    · exact absurd rfl some
    · rw [decodedFirst]
      split <;> simp
    · rw [decodedFirst]
      split
      · simp
      · split
        · have length := decodedCode_length b2uTable (codeOf c c2)
          exact length.1 ▸ length.2.2
        · simp
  enough source much := by
    rcases source with _ | ⟨c, _ | ⟨c2, others⟩⟩
    · rfl
    · simp at much
    · rfl

theorem uaoDecoderTransform_eq (atEOF : Bool) (room : Nat) (source : Bytes) :
    uaoDecoderTransform b2uTable atEOF room source =
      (decoder b2uTable).transform atEOF room source := by
  have known : ¬ (atEOF = false ∧ true = false) := by simp
  induction length : source.length using Nat.strong_induction_on generalizing source room with
  | _ size ih =>
      rcases source with _ | ⟨c, _ | ⟨c2, others⟩⟩
      · rw [uaoDecoderTransform, Transducer.transform]
      · rw [uaoDecoderTransform, Transducer.transform]
        by_cases ascii : c < 0x80
        · have whole : (decoder b2uTable).whole [c] = true := decide_eq_true ascii
          have first : (decoder b2uTable).first [c] = ([c], 1) := if_pos ascii
          rw [if_pos ascii, whole, first, if_neg known]
          simp only [List.length_singleton, Nat.lt_one_iff, List.drop_zero, Nat.sub_self,
            uaoDecoderTransform, Transducer.transform]
        · have whole : (decoder b2uTable).whole [c] = false := decide_eq_false ascii
          have first : (decoder b2uTable).first [c] = ([questionMark], 1) := if_neg ascii
          rw [if_neg ascii, whole, first]
          simp only [and_true, List.length_singleton, Nat.lt_one_iff, List.drop_zero, Nat.sub_self,
            Transducer.transform]
      · have whole : (decoder b2uTable).whole (c :: c2 :: others) = true := rfl
        simp only [List.length_cons] at length
        rw [uaoDecoderTransform, Transducer.transform, whole, if_neg known]
        by_cases ascii : c < 0x80
        · have first : (decoder b2uTable).first (c :: c2 :: others) = ([c], 1) := if_pos ascii
          rw [if_pos ascii, first, ih _ (by simp; omega) _ _ rfl]
          simp only [List.length_singleton, Nat.lt_one_iff, List.drop_zero, Nat.sub_self]
        · by_cases pair : c2 ≥ 0x40
          · have first : (decoder b2uTable).first (c :: c2 :: others) =
                (decodedCode b2uTable (codeOf c c2), 2) := (if_neg ascii).trans (if_pos pair)
            have written := (decodedCode_length b2uTable (codeOf c c2)).1
            rw [if_neg ascii, if_pos pair, first]
            dsimp only
            rw [ih others.length (by omega) _ _ rfl, written]
            rfl
          · have first : (decoder b2uTable).first (c :: c2 :: others) = ([questionMark], 1) :=
              (if_neg ascii).trans (if_neg pair)
            rw [if_neg ascii, if_neg pair, first, ih _ (by simp; omega) _ _ rfl]
            simp only [List.length_singleton, Nat.lt_one_iff, List.drop_zero, Nat.sub_self]

/-! ### Full runes -/
theorem firstSize_eq (first : UInt8) : firstSize first =
    if first.toNat < 0xC2 ∨ 0xF5 ≤ first.toNat then 1 else if first.toNat < 0xE0 then 2
    else if first.toNat < 0xF0 then 3 else 4 := by
  simp only [firstSize, UInt8.lt_iff_toNat_lt, UInt8.le_iff_toNat_le]
  rfl

theorem accepts_three {first second : UInt8} (low : 0xE0 ≤ first.toNat)
    (high : first.toNat < 0xF0) :
    accepts first second = inRange (if first.toNat = 0xe0 then 0xa0 else 0x80)
      (if first.toNat = 0xed then 0x9f else 0xbf) second := by
  simp only [accepts, ← UInt8.toNat_inj, UInt8.toNat_ofNat]
  congr 1 <;> split_ifs <;> omega

theorem accepts_four {first second : UInt8} (low : 0xF0 ≤ first.toNat) :
    accepts first second = inRange (if first.toNat = 0xf0 then 0x90 else 0x80)
      (if first.toNat = 0xf4 then 0x8f else 0xbf) second := by
  simp only [accepts, ← UInt8.toNat_inj, UInt8.toNat_ofNat]
  congr 1 <;> split_ifs <;> omega

theorem decodeRune_append (first : UInt8) (rest behind : Bytes)
    (whole : decodeRune (first :: rest) ≠ (runeError, 1) ∨ fullRune (first :: rest) = true) :
    decodeRune (first :: (rest ++ behind)) = decodeRune (first :: rest) := by
  by_cases ascii : first.toNat < 0x80
  · simp only [decodeRune, if_pos ascii]
  by_cases low : first.toNat < 0xC2
  · simp only [decodeRune, if_neg ascii, if_pos low]
  by_cases two : first.toNat < 0xE0
  · have size : firstSize first = 2 := by rw [firstSize_eq, if_neg (by omega), if_pos two]
    simp only [decodeRune, fullRune, size, if_neg ascii, if_neg low, if_pos two] at whole ⊢
    cases rest with
    | nil => simp at whole
    | cons second others => rfl
  by_cases three : first.toNat < 0xF0
  · have size : firstSize first = 3 := by
      rw [firstSize_eq, if_neg (by omega), if_neg two, if_pos three]
    simp only [decodeRune, fullRune, size, accepts_three (by omega) three, if_neg ascii,
      if_neg low, if_neg two, if_pos three] at whole ⊢
    generalize inRange (if first.toNat = 0xe0 then 0xa0 else 0x80)
      (if first.toNat = 0xed then 0x9f else 0xbf) = second? at *
    rcases rest with _ | ⟨second, _ | ⟨third, others⟩⟩
    · simp at whole
    · cases behind with
      | nil => rfl
      | cons third others =>
          have wrong : second? second = false := by simpa using whole
          simp [wrong]
    · rfl
  by_cases four : first.toNat < 0xF5
  · have size : firstSize first = 4 := by
      rw [firstSize_eq, if_neg (by omega), if_neg two, if_neg three]
    simp only [decodeRune, fullRune, size, accepts_four (show 0xF0 ≤ first.toNat by omega),
      if_neg ascii, if_neg low, if_neg two, if_neg three, if_pos four] at whole ⊢
    generalize inRange (if first.toNat = 0xf0 then 0x90 else 0x80)
      (if first.toNat = 0xf4 then 0x8f else 0xbf) = second? at *
    rcases rest with _ | ⟨second, _ | ⟨third, _ | ⟨fourth, others⟩⟩⟩
    · simp at whole
    · have wrong : second? second = false := by simpa using whole
      rcases behind with _ | ⟨third, _ | ⟨fourth, others⟩⟩
      · rfl
      · rfl
      · simp [wrong]
    · have wrong : second? second = false ∨ inRange 0x80 0xBF third = false := by
        by_cases good : second? second = true
        · right
          simpa [good] using whole
        · left
          simpa using good
      cases behind with
      | nil => rfl
      | cons fourth others =>
          rcases wrong with wrong | wrong
          · simp [wrong]
          · simp [wrong]
    · rfl
  · simp only [decodeRune, if_neg ascii, if_neg low, if_neg two, if_neg three, if_neg four]

theorem fullRune_four (first second third fourth : UInt8) (others : Bytes) :
    fullRune (first :: second :: third :: fourth :: others) = true := by
  have most : firstSize first ≤ 4 := by
    unfold firstSize
    split_ifs <;> omega
  rw [fullRune, if_pos]
  simp only [List.length_cons]
  omega

/-! ### The encoder -/

def encodedFirst : Bytes → Bytes × Nat
  | [] => ([], 0)
  | c :: rest =>
      if c < 0x80 then ([c], 1)
      else (encodeRune u2bTable (decodeRune (c :: rest)), (decodeRune (c :: rest)).2)

def encodedWhole (source : Bytes) : Bool :=
  decodeRune source ≠ (runeError, 1) ∨ fullRune source = true

theorem encodeRune_length (rune : Nat × Nat) : (encodeRune u2bTable rune).length ≤ 2 := by
  unfold encodeRune
  split
  · exact Nat.le_succ 1
  · dsimp only
    generalize (if rune.1 < 0x10000 then (u2bTable rune.1).toNat else 0) = code
    generalize (if code = 0 then 63 else code) = code
    split
    · exact Nat.le_refl 2
    · exact Nat.le_succ 1

def encoder : Transducer UInt8 UInt8 where
  first := encodedFirst u2bTable
  whole := encodedWhole
  longest := 2
  lookahead := 4
  size source some := by
    cases source with
    | nil => exact absurd rfl some
    | cons c rest =>
        rw [encodedFirst]
        split
        · simp
        · exact decodeRune_size c rest
  stays source behind some whole := by
    cases source with
    | nil => exact absurd rfl some
    | cons c rest =>
        have same := decodeRune_append c rest behind (of_decide_eq_true whole)
        rw [List.cons_append, encodedFirst, encodedFirst, same]
  bound source some := by
    cases source with
    | nil => exact absurd rfl some
    | cons c rest =>
        rw [encodedFirst]
        split
        · simp
        · exact encodeRune_length u2bTable _
  enough source much := by
    rcases source with _ | ⟨first, _ | ⟨second, _ | ⟨third, _ | ⟨fourth, others⟩⟩⟩⟩
    case cons.cons.cons.cons =>
      exact decide_eq_true (.inr (fullRune_four first second third fourth others))
    all_goals
      simp only [List.length_cons, List.length_nil] at much
      omega

theorem uaoEncoderTransform_eq (atEOF : Bool) (room : Nat) (source : Bytes) :
    uaoEncoderTransform u2bTable atEOF room source =
      (encoder u2bTable).transform atEOF room source := by
  have known : ¬ (atEOF = false ∧ true = false) := by simp
  induction length : source.length using Nat.strong_induction_on generalizing source room with
  | _ size ih =>
      cases source with
      | nil => rw [uaoEncoderTransform, Transducer.transform]
      | cons c rest =>
          rw [List.length_cons] at length
          have again := fun room source (less : source.length < size) => ih _ less room source rfl
          rw [uaoEncoderTransform, Transducer.transform]
          by_cases ascii : c < 0x80
          · have low : c.toNat < 0x80 := UInt8.lt_iff_toNat_lt.1 ascii
            have rune : decodeRune (c :: rest) = (c.toNat, 1) := by
              simp only [decodeRune, if_pos low]
            have whole : (encoder u2bTable).whole (c :: rest) = true := by
              refine decide_eq_true (.inl ?_)
              rw [rune]
              intro same
              have value : c.toNat = runeError := congrArg Prod.fst same
              unfold runeError at value
              omega
            have first : (encoder u2bTable).first (c :: rest) = ([c], 1) := if_pos ascii
            rw [if_pos ascii, whole, first, if_neg known, again _ rest (by omega)]
            simp only [List.length_singleton, Nat.lt_one_iff, List.drop_zero, Nat.sub_self]
          · have first : (encoder u2bTable).first (c :: rest) =
                (encodeRune u2bTable (decodeRune (c :: rest)), (decodeRune (c :: rest)).2) :=
              if_neg ascii
            have whole : (encoder u2bTable).whole (c :: rest) =
                (decodeRune (c :: rest) ≠ (runeError, 1) ∨ fullRune (c :: rest) = true : Bool) := rfl
            rw [if_neg ascii, first, whole]
            rcases decodeRune (c :: rest) with ⟨r, runeSize⟩
            dsimp only
            by_cases wrong : r = runeError ∧ runeSize = 1
            · obtain ⟨rfl, rfl⟩ := wrong
              have single : encodeRune u2bTable (runeError, 1) = [questionMark] := rfl
              have unknown : ((decide ((runeError, 1) ≠ (runeError, 1) ∨
                  fullRune (c :: rest) = true)) = false) ↔ fullRune (c :: rest) = false := by simp
              rw [if_pos ⟨rfl, rfl⟩, single, again _ rest (by omega)]
              simp only [unknown, List.length_singleton, Nat.lt_one_iff, List.drop_zero, Nat.sub_self]
            · have told : (decide ((r, runeSize) ≠ (runeError, 1) ∨ fullRune (c :: rest) = true)) =
                  true := by
                refine decide_eq_true (.inl fun same => wrong ?_)
                exact ⟨congrArg Prod.fst same, congrArg Prod.snd same⟩
              have notError : (r = runeError && runeSize = 1 : Bool) = false := by
                simpa using fun isError => not_and.1 wrong isError
              have shorter : (rest.drop (runeSize - 1)).length < size := by
                rw [List.length_drop]
                omega
              rw [if_neg wrong, told, if_neg known, again _ _ shorter, again _ _ shorter]
              simp only [encodeRune, notError, Bool.false_eq_true, if_false]
              generalize (if r < 0x10000 then (u2bTable r).toNat else 0) = b5
              have mark : questionMark.toNat = 63 := rfl
              rw [mark]
              generalize (if b5 = 0 then 63 else b5) = b5
              by_cases double : b5 > 0xFF
              · rw [if_pos double, if_pos double]
                rfl
              · rw [if_neg double, if_neg double]
                simp only [List.length_singleton, Nat.lt_one_iff]

/-! ### The fast paths -/

def transformed (transform : Transform UInt8 UInt8) (room : Nat) (text : Bytes) : Bytes :=
  (transform true room text).written

theorem transformed_decoder (b : Bytes) :
    transformed (uaoDecoderTransform b2uTable) (3 * b.length) b = (decoder b2uTable).all b := by
  have roomy : (decoder b2uTable).longest * b.length ≤ 3 * b.length := Nat.le_refl _
  rw [transformed, uaoDecoderTransform_eq, Transducer.transform_all b roomy]

theorem transformed_encoder (text : Bytes) :
    transformed (uaoEncoderTransform u2bTable) (2 * text.length) text =
      (encoder u2bTable).all text := by
  have roomy : (encoder u2bTable).longest * text.length ≤ 2 * text.length := Nat.le_refl _
  rw [transformed, uaoEncoderTransform_eq, Transducer.transform_all text roomy]

/-- The text in front of the first half of a character that ends the text or that a NUL follows,
where `Decode` stops. -/
def beforeStop : Bytes → Bytes
  | [] => []
  | c :: rest =>
      if c < 0x80 then c :: beforeStop rest
      else
        match rest with
        | [] => []
        | c2 :: others =>
            if c2 = 0 then []
            else if c2 ≥ 0x40 then c :: c2 :: beforeStop others
            else c :: beforeStop (c2 :: others)

/-- Every character of two bytes in front of that stop has a code point of its own. -/
def AllMapped : Bytes → Prop
  | [] => True
  | c :: rest =>
      if c < 0x80 then AllMapped rest
      else
        match rest with
        | [] => True
        | c2 :: others =>
            if c2 = 0 then True
            else if c2 ≥ 0x40 then
              ((b2uTable (codeOf c c2)).toNat ≠ 0 ∧ runeLen (b2uTable (codeOf c c2)).toNat ≠ none) ∧
                AllMapped others
            else AllMapped (c2 :: others)

theorem decodedCode_mapped {code : Nat} (mapped : (b2uTable code).toNat ≠ 0)
    (scalar : runeLen (b2uTable code).toNat ≠ none) :
    decodedCode b2uTable code = encodedRune (b2uTable code).toNat := by
  simp only [decodedCode, if_neg mapped, if_neg scalar]

theorem all_ascii {c : UInt8} (ascii : c < 0x80) (rest : Bytes) :
    (decoder b2uTable).all (c :: rest) = c :: (decoder b2uTable).all rest := by
  have first : (decoder b2uTable).first (c :: rest) = ([c], 1) := by
    cases rest with
    | nil => exact if_pos ascii
    | cons c2 others => exact if_pos ascii
  rw [Transducer.all_cons, first]
  rfl

theorem decode_eq (b : Bytes) (mapped : AllMapped b2uTable b) :
    decode b2uTable b = (decoder b2uTable).all (beforeStop b) := by
  induction length : b.length using Nat.strong_induction_on generalizing b with
  | _ size ih =>
      rcases b with _ | ⟨c, _ | ⟨c2, others⟩⟩
      · rw [decode, beforeStop, Transducer.all]
      · by_cases ascii : c < 0x80
        · rw [decode, beforeStop, if_pos ascii, if_pos ascii, all_ascii b2uTable ascii, decode,
            beforeStop, Transducer.all]
        · rw [decode, beforeStop, if_neg ascii, if_neg ascii, Transducer.all]
      · simp only [List.length_cons] at length
        rw [AllMapped] at mapped
        rw [decode, beforeStop]
        by_cases ascii : c < 0x80
        · rw [if_pos ascii] at mapped ⊢
          rw [if_pos ascii, all_ascii b2uTable ascii, ih _ (by simp; omega) (c2 :: others) mapped rfl]
        · rw [if_neg ascii] at mapped ⊢
          rw [if_neg ascii]
          by_cases nul : c2 = 0
          · rw [if_pos nul, if_pos nul, Transducer.all]
          · rw [if_neg nul] at mapped ⊢
            rw [if_neg nul]
            by_cases pair : c2 ≥ 0x40
            · have first : (decoder b2uTable).first (c :: c2 :: beforeStop others) =
                  (decodedCode b2uTable (codeOf c c2), 2) := (if_neg ascii).trans (if_pos pair)
              rw [if_pos pair] at mapped ⊢
              rw [if_pos pair, Transducer.all_cons, first,
                decodedCode_mapped b2uTable mapped.1.1 mapped.1.2,
                ih _ (by omega) others mapped.2 rfl]
              rfl
            · have low : c2 < 0x80 := by
                rw [ge_iff_le, UInt8.le_iff_toNat_le] at pair
                rw [UInt8.lt_iff_toNat_lt]
                have bound : c2.toNat < 0x40 := Nat.lt_of_not_le pair
                exact Nat.lt_trans bound (by decide)
              rw [if_neg pair] at mapped ⊢
              rw [if_neg pair]
              have behind := ih _ (by simp; omega) (c2 :: others) mapped rfl
              have stop : beforeStop (c2 :: others) = c2 :: beforeStop others := by
                cases others with
                | nil => exact if_pos low
                | cons third more => exact if_pos low
              have first : (decoder b2uTable).first (c :: c2 :: beforeStop others) =
                  ([questionMark], 1) := (if_neg ascii).trans (if_neg pair)
              rw [behind, stop, Transducer.all_cons _ c, first]
              rfl

theorem encode_eq (ascii : ∀ r, r < 0x80 → u2bTable r = UInt16.ofNat r) (text : Bytes)
    (plain : 0 ∉ text) : encodeBig5 u2bTable text = (encoder u2bTable).all text := by
  induction length : text.length using Nat.strong_induction_on generalizing text with
  | _ size ih =>
      cases text with
      | nil => rw [Transducer.all]; rfl
      | cons c rest =>
          rw [List.length_cons] at length
          rw [List.mem_cons, not_or] at plain
          have size := decodeRune_size c rest
          have behind : encodeBig5 u2bTable (c :: rest) =
              encodeRune u2bTable (decodeRune (c :: rest)) ++
                encodeBig5 u2bTable (rest.drop ((decodeRune (c :: rest)).2 - 1)) := by
            rw [encodeBig5, encodeBig5, runes, runesFrom, List.flatMap_cons, runesFrom_drop]
          have drops : (encoder u2bTable).first (c :: rest) =
              (encodeRune u2bTable (decodeRune (c :: rest)), (decodeRune (c :: rest)).2) := by
            by_cases low : c < 0x80
            · have value : c.toNat < 0x80 := UInt8.lt_iff_toNat_lt.1 low
              have rune : decodeRune (c :: rest) = (c.toNat, 1) := by
                simp only [decodeRune, if_pos value]
              rw [rune, encodeRune_ascii ascii value (Ne.symm plain.1)]
              exact if_pos low
            · exact if_neg low
          have shorter : (rest.drop ((decodeRune (c :: rest)).2 - 1)).length < rest.length + 1 := by
            rw [List.length_drop]
            omega
          have inside : 0 ∉ rest.drop ((decodeRune (c :: rest)).2 - 1) :=
            fun member => plain.2 (List.mem_of_mem_drop member)
          rw [behind, ih _ (by omega) _ inside rfl, Transducer.all_cons, Transducer.drop_first, drops]

/-- The transformers are one function however they are called.  `Encode` is that function for
texts without NULs, and `Decode` is it for the text in front of its stop, where all is mapped. -/
theorem transcoder_agrees (ascii : ∀ r, r < 0x80 → u2bTable r = UInt16.ofNat r) :
    Streams (uaoDecoderTransform b2uTable) 3 2
        (fun b => transformed (uaoDecoderTransform b2uTable) (3 * b.length) b) ∧
      Streams (uaoEncoderTransform u2bTable) 2 4
        (fun text => transformed (uaoEncoderTransform u2bTable) (2 * text.length) text) ∧
      (∀ b, AllMapped b2uTable b →
        decode b2uTable b =
          transformed (uaoDecoderTransform b2uTable) (3 * (beforeStop b).length) (beforeStop b)) ∧
      ∀ text, 0 ∉ text →
        encodeBig5 u2bTable text =
          transformed (uaoEncoderTransform u2bTable) (2 * text.length) text := by
  have decodes : uaoDecoderTransform b2uTable = (decoder b2uTable).transform := by
    funext atEOF room source
    exact uaoDecoderTransform_eq b2uTable atEOF room source
  have encodes : uaoEncoderTransform u2bTable = (encoder u2bTable).transform := by
    funext atEOF room source
    exact uaoEncoderTransform_eq u2bTable atEOF room source
  have decoded : (fun b => transformed (uaoDecoderTransform b2uTable) (3 * b.length) b) =
      (decoder b2uTable).all := funext (transformed_decoder b2uTable)
  have encoded : (fun text => transformed (uaoEncoderTransform u2bTable) (2 * text.length) text) =
      (encoder u2bTable).all := funext (transformed_encoder u2bTable)
  refine ⟨?_, ?_, ?_, ?_⟩
  · rw [decoded, decodes]
    exact Transducer.streams
  · rw [encoded, encodes]
    exact Transducer.streams
  · intro b mapped
    rw [transformed_decoder, decode_eq b2uTable b mapped]
  · intro text plain
    rw [transformed_encoder, encode_eq u2bTable ascii text plain]

/-- The tables as they are for codes and code points that belong to nothing else. -/
theorem transcoder_agrees_ascii :
    (∀ r, r < 0x80 → (fun r => if r < 0x80 then UInt16.ofNat r else 0) r = UInt16.ofNat r) ∧
      (∀ text, 0 ∉ text →
        encodeBig5 (fun r => if r < 0x80 then UInt16.ofNat r else 0) text =
          transformed (uaoEncoderTransform fun r => if r < 0x80 then UInt16.ofNat r else 0)
            (2 * text.length) text) :=
  have ascii : ∀ r, r < 0x80 →
      (fun r => if r < 0x80 then UInt16.ofNat r else 0) r = UInt16.ofNat r :=
    fun _ low => if_pos low
  ⟨ascii, (transcoder_agrees UInt16.ofNat _ ascii).2.2.2⟩

/-- A first half at the end, one in front of a NUL, a surrogate code, and a NUL. -/
theorem fast_paths_differ :
    decode UInt16.ofNat [0xA4] = [] ∧
      transformed (uaoDecoderTransform UInt16.ofNat) 3 [0xA4] = [questionMark] ∧
      decode UInt16.ofNat [0xA4, 0x00, 0x41] = [] ∧
      transformed (uaoDecoderTransform UInt16.ofNat) 9 [0xA4, 0x00, 0x41] =
        [questionMark, 0x00, 0x41] ∧
      decode UInt16.ofNat [0xD8, 0x7F] = [0xEF, 0xBF, 0xBD] ∧
      transformed (uaoDecoderTransform UInt16.ofNat) 6 [0xD8, 0x7F] = [questionMark] ∧
      encodeBig5 (fun r => if r < 0x80 then UInt16.ofNat r else 0) [0x00] = [questionMark] ∧
      transformed (uaoEncoderTransform fun r => if r < 0x80 then UInt16.ofNat r else 0) 2 [0x00] =
        [0x00] := by
  decide +kernel

end Pttbbs.Big5uao
