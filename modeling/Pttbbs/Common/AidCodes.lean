/-
The three forms of an article id: the number, the file name and the code of eight characters.
-/

import Mathlib.Data.List.GetD
import Pttbbs.Lib.FixedDigits
import Pttbbs.SearchSvc.Aids

namespace Pttbbs.Common.Aids

open Pttbbs.Lib Pttbbs.SearchSvc

/-! ### File names -/

inductive NameType where
  | m
  | g
deriving DecidableEq, Repr

def NameType.byte : NameType → UInt8
  | .m => 77
  | .g => 71

def hexDigit (digit : Nat) : UInt8 := if digit < 10 then .ofNat (48 + digit) else .ofNat (55 + digit)

def formatHex3 (value : Nat) : Bytes := (fixedDigits 16 3 value).map hexDigit

/-- `%d` of a number of 32 bits, which is taken for a signed one. -/
def formatInt32 (value : Nat) : Bytes :=
  if time4 value < 0 then 45 :: formatNat (-time4 value).toNat else formatNat value

/-- The name that `fhdr_stamp` writes, with the stamp as an unsigned number. -/
def stampName (type : NameType) (stamp suffix : Nat) : Bytes :=
  [type.byte, 46] ++ formatNat stamp ++ utf8 ".A." ++ formatHex3 suffix

def aiduType (aidu : Nat) : NameType := if aidu.testBit 44 then .g else .m

def aidu2fn (aidu : Nat) : Bytes :=
  [(aiduType aidu).byte, 46] ++ formatInt32 (aidu / 2 ^ 12 % 2 ^ 32) ++ utf8 ".A." ++
    formatHex3 (aidu % 2 ^ 12)

/-! ### Codes -/

def aidcTable : Bytes := utf8 "0123456789ABCDEFGHIJKLMNOPQRSTUVWXYZabcdefghijklmnopqrstuvwxyz-_"

def aidu2aidcLoop : Nat → Nat → Bytes → Bytes
  | 0, _, code => code
  | left + 1, aidu, code =>
      aidu2aidcLoop left (aidu / aidcTable.length)
        (aidcTable.getD (aidu % aidcTable.length) 0 :: code)

def aidu2aidc (aidu : Nat) : Bytes := aidu2aidcLoop 8 (aiduRaw aidu) []

def aidcDigit (byte : UInt8) : Option Nat :=
  if 48 ≤ byte ∧ byte ≤ 57 then some (byte.toNat - 48)
  else if 65 ≤ byte ∧ byte ≤ 90 then some (byte.toNat - 65 + 10)
  else if 97 ≤ byte ∧ byte ≤ 122 then some (byte.toNat - 97 + 36)
  else if byte = 45 then some 62
  else if byte = 95 then some 63
  else none

def aidc2aiduLoop (aidu : Nat) : Bytes → Nat
  | [] => aidu
  | byte :: rest =>
      if byte = 0 ∨ byte = blank then aidu
      else
        match aidcDigit byte with
        | none => 0
        | some digit => aidc2aiduLoop (aidu * 64 % 2 ^ 64 + digit) rest

def aidc2aidu (aidc : Bytes) : Nat := aidc2aiduLoop 0 aidc

def aidcByte (digit : Nat) : UInt8 := aidcTable.getD digit 0

theorem aidcDigit_aidcByte (digit : Nat) (small : digit < 64) :
    aidcDigit (aidcByte digit) = some digit ∧ aidcByte digit ≠ 0 ∧ aidcByte digit ≠ blank := by
  have all : ∀ value : Fin 64, aidcDigit (aidcByte value) = some value.val ∧
      aidcByte value ≠ 0 ∧ aidcByte value ≠ blank := by decide +kernel
  exact all ⟨digit, small⟩

theorem aidu2aidcLoop_eq (count aidu : Nat) (code : Bytes) :
    aidu2aidcLoop count aidu code = (fixedDigits 64 count aidu).map aidcByte ++ code := by
  induction count generalizing aidu code with
  | zero => rfl
  | succ count ih =>
      rw [aidu2aidcLoop, ih, fixedDigits, List.map_append, List.append_assoc]
      rfl

theorem aidu2aidc_eq (aidu : Nat) :
    aidu2aidc aidu = (fixedDigits 64 8 (aiduRaw aidu)).map aidcByte := by
  rw [aidu2aidc, aidu2aidcLoop_eq, List.append_nil]

theorem aidc2aiduLoop_map (digits : List Nat) (start : Nat)
    (small : ∀ digit ∈ digits, digit < 64) (fits : (start + 1) * 64 ^ digits.length ≤ 2 ^ 64) :
    aidc2aiduLoop start (digits.map aidcByte) = digitsFrom 64 start digits := by
  induction digits generalizing start with
  | nil => rfl
  | cons digit rest ih =>
      obtain ⟨is, nonzero, visible⟩ := aidcDigit_aidcByte digit (small digit List.mem_cons_self)
      have bound := small digit List.mem_cons_self
      rw [List.length_cons, Nat.pow_succ] at fits
      have room : (start + 1) * 64 ≤ 2 ^ 64 := by
        refine Nat.le_trans ?_ fits
        have positive : 0 < 64 ^ rest.length := Nat.pow_pos (by omega)
        rw [Nat.mul_comm (64 ^ rest.length), ← Nat.mul_assoc]
        exact Nat.le_mul_of_pos_right _ positive
      rw [List.map_cons, aidc2aiduLoop, if_neg (not_or.2 ⟨nonzero, visible⟩), is]
      change aidc2aiduLoop (start * 64 % 2 ^ 64 + digit) _ = _
      rw [Nat.mod_eq_of_lt (by omega), Nat.mul_comm start]
      refine ih _ (fun other member => small other (List.mem_cons_of_mem _ member)) ?_
      calc (64 * start + digit + 1) * 64 ^ rest.length
          ≤ (start + 1) * 64 * 64 ^ rest.length := Nat.mul_le_mul_right _ (by omega)
        _ = (start + 1) * (64 ^ rest.length * 64) := by ring
        _ ≤ 2 ^ 64 := fits

theorem aidc2aidu_aidu2aidc (aidu : Nat) : aidc2aidu (aidu2aidc aidu) = aiduRaw aidu := by
  have small := @fixedDigits_lt 64 (by omega) 8 (aiduRaw aidu)
  rw [aidu2aidc_eq, aidc2aidu, aidc2aiduLoop_map _ _ small (by rw [fixedDigits_length]; decide),
    digitsFrom_fixedDigits]
  refine Nat.mod_eq_of_lt (Nat.lt_trans (Nat.mod_lt _ (by decide)) (by decide))

theorem digits_of_code {code : Bytes} (alphabet : ∀ byte ∈ code, byte ∈ aidcTable) :
    ∃ digits : List Nat, (∀ digit ∈ digits, digit < 64) ∧ digits.map aidcByte = code := by
  induction code with
  | nil => exact ⟨[], by simp, rfl⟩
  | cons byte rest ih =>
      obtain ⟨digits, small, same⟩ := ih fun other member =>
        alphabet other (List.mem_cons_of_mem _ member)
      obtain ⟨place, inside, here⟩ := List.mem_iff_getElem.1 (alphabet byte List.mem_cons_self)
      refine ⟨place :: digits, ?_, ?_⟩
      · intro digit member
        rcases List.mem_cons.1 member with rfl | later
        · exact inside
        · exact small digit later
      · rw [List.map_cons, same, aidcByte, List.getD_eq_getElem _ _ inside, here]

/-- A code of eight characters for a number that an id can be is the code of what it is read
as. -/
theorem aidu2aidc_aidc2aidu {code : Bytes} (length : code.length = 8)
    (alphabet : ∀ byte ∈ code, byte ∈ aidcTable) (raw : aidc2aidu code < 2 ^ 45) :
    aidu2aidc (aidc2aidu code) = code := by
  obtain ⟨digits, small, same⟩ := digits_of_code alphabet
  have count : digits.length = 8 := by rw [← length, ← same, List.length_map]
  have value : aidc2aidu code = digitsFrom 64 0 digits := by
    rw [← same, aidc2aidu, aidc2aiduLoop_map _ _ small (by rw [count]; decide)]
  rw [aidu2aidc_eq, aiduRaw, Nat.mod_eq_of_lt raw, value, ← count, fixedDigits_digitsFrom small,
    same]

/-! ### The id of a name -/

theorem strtoul_digits {base : Nat} {digits rest : Bytes} (nonempty : digits ≠ [])
    (plain : skipRadix base (digits ++ rest) = digits ++ rest)
    (all : ∀ byte ∈ digits, digitOf byte < base ∧ isSpace byte = false ∧ byte ≠ 45 ∧ byte ≠ 43)
    (stops : rest.takeWhile (fun byte => digitOf byte < base) = [])
    (small : digits.foldl (fun total byte => base * total + digitOf byte) 0 < 2 ^ 64) :
    strtoul base (digits ++ rest) =
      digits.foldl (fun total byte => base * total + digitOf byte) 0 := by
  have unspaced : (digits ++ rest).dropWhile isSpace = digits ++ rest := by
    cases digits with
    | nil => exact absurd rfl nonempty
    | cons first others =>
        rw [List.cons_append, List.dropWhile_cons, (all first List.mem_cons_self).2.1]
        rfl
  have head : ∃ first, (digits ++ rest).head? = some first ∧ first ∈ digits := by
    cases digits with
    | nil => exact absurd rfl nonempty
    | cons first others => exact ⟨first, rfl, List.mem_cons_self⟩
  obtain ⟨first, is, member⟩ := head
  have signs := (all first member).2.2
  have taken : (digits ++ rest).takeWhile (fun byte => digitOf byte < base) = digits := by
    rw [List.takeWhile_append_of_pos (fun byte inside => by simpa using (all byte inside).1), stops,
      List.append_nil]
  simp only [strtoul, unspaced, is, Option.some.injEq, signs.1, signs.2, or_self, if_false, plain,
    taken]
  rw [if_neg (Nat.not_le.2 small)]

theorem decimal_facts {byte : UInt8} (digit : isDigitByte byte = true) :
    digitOf byte < 10 ∧ isSpace byte = false ∧ byte ≠ 45 ∧ byte ≠ 43 ∧ byte ≠ 46 ∧
      digitOf byte = byte.toNat - 48 := by
  have all : ∀ value : Fin 256, isDigitByte (.ofNat value) = true →
      digitOf (.ofNat value) < 10 ∧ isSpace (.ofNat value) = false ∧
        (.ofNat value : UInt8) ≠ 45 ∧ (.ofNat value : UInt8) ≠ 43 ∧ (.ofNat value : UInt8) ≠ 46 ∧
          digitOf (.ofNat value) = (UInt8.ofNat value).toNat - 48 := by decide +kernel
  have held := all ⟨byte.toNat, byte.toNat_lt⟩
  rw [UInt8.ofNat_toNat] at held
  exact held digit

theorem hex_facts {digit : Nat} (small : digit < 16) :
    digitOf (hexDigit digit) = digit ∧ isSpace (hexDigit digit) = false ∧ hexDigit digit ≠ 45 ∧
      hexDigit digit ≠ 43 ∧ hexDigit digit ≠ 120 ∧ hexDigit digit ≠ 88 := by
  have all : ∀ value : Fin 16, digitOf (hexDigit value) = value.val ∧
      isSpace (hexDigit value) = false ∧ hexDigit value ≠ 45 ∧ hexDigit value ≠ 43 ∧
        hexDigit value ≠ 120 ∧ hexDigit value ≠ 88 := by decide
  exact all ⟨digit, small⟩

theorem strtoul_formatNat {value : Nat} (small : value < 2 ^ 64) (tail : Bytes) :
    strtoul 10 (formatNat value ++ 46 :: tail) = value := by
  have digits := formatNat_digits value
  have total : (formatNat value).foldl (fun total byte => 10 * total + digitOf byte) 0 = value := by
    have same : ∀ start : Nat, (formatNat value).foldl
        (fun total byte => 10 * total + digitOf byte) start =
        (formatNat value).foldl (fun total byte => 10 * total + (byte.toNat - 48)) start := by
      intro start
      refine List.foldl_ext _ _ _ ?_
      intro total byte member
      rw [(decimal_facts (digits byte member)).2.2.2.2.2]
    rw [same]
    exact digitsValue_formatNat value
  have plain : ∀ text : Bytes, skipRadix 10 text = text := by
    intro text
    unfold skipRadix
    split
    · rw [if_neg (by omega)]
    · rfl
  rw [strtoul_digits (formatNat_ne_nil value) (plain _) ?_ ?_ (by rw [total]; exact small), total]
  · intro byte member
    obtain ⟨digit, space, minus, plus, _⟩ := decimal_facts (digits byte member)
    exact ⟨digit, space, minus, plus⟩
  · rfl

theorem strtoul_formatHex3 {value : Nat} (small : value < 2 ^ 12) :
    strtoul 16 (formatHex3 value) = value := by
  have below := @fixedDigits_lt 16 (by omega) 3 value
  have length := fixedDigits_length 16 3 value
  have total : (formatHex3 value).foldl (fun total byte => 16 * total + digitOf byte) 0 = value := by
    rw [formatHex3, List.foldl_map]
    have same : (fixedDigits 16 3 value).foldl
        (fun total digit => 16 * total + digitOf (hexDigit digit)) 0 =
        digitsFrom 16 0 (fixedDigits 16 3 value) := by
      refine List.foldl_ext _ _ _ ?_
      intro total digit member
      rw [(hex_facts (below digit member)).1]
    rw [same, digitsFrom_fixedDigits, Nat.mod_eq_of_lt (show value < 16 ^ 3 from small)]
  have nonempty : formatHex3 value ≠ [] := by
    intro nil
    rw [formatHex3, List.map_eq_nil_iff] at nil
    rw [nil] at length
    cases length
  have plain : skipRadix 16 (formatHex3 value) = formatHex3 value := by
    unfold skipRadix
    split
    · rename_i mark digit rest written
      have member : mark ∈ formatHex3 value := by rw [written]; simp
      obtain ⟨nibble, inside, same⟩ := List.mem_map.1 member
      have facts := hex_facts (below nibble inside)
      refine (if_neg ?_).trans written.symm
      rw [← same]
      rintro ⟨_, lower | upper, _⟩
      · exact facts.2.2.2.2.1 lower
      · exact facts.2.2.2.2.2 upper
    · rfl
  have read := @strtoul_digits 16 (formatHex3 value) [] nonempty
    (by rw [List.append_nil]; exact plain) ?_ rfl (by rw [total]; omega)
  · rw [List.append_nil] at read
    rw [read, total]
  · intro byte member
    obtain ⟨digit, inside, same⟩ := List.mem_map.1 member
    have facts := hex_facts (below digit inside)
    rw [← same, facts.1]
    exact ⟨below digit inside, facts.2.1, facts.2.2.1, facts.2.2.2.1⟩

theorem dot_not_mem_formatNat (value : Nat) : (46 : UInt8) ∉ formatNat value :=
  fun member => (decimal_facts (formatNat_digits value 46 member)).2.2.2.2.1 rfl

theorem cut_name (type : NameType) (stamp : Nat) (others right : Bytes) :
    cut (46 :: 65 :: others) ([type.byte, 46] ++ formatNat stamp ++ (46 :: 65 :: others) ++ right) =
      some ([type.byte, 46] ++ formatNat stamp, right) := by
  have rest := cut_append 46 (65 :: others) (formatNat stamp) right (dot_not_mem_formatNat stamp)
  obtain ⟨first, digits, same⟩ := List.exists_cons_of_ne_nil (formatNat_ne_nil stamp)
  have digit := formatNat_digits stamp first (by rw [same]; exact List.mem_cons_self)
  have apart : first ≠ 65 := by
    rintro rfl
    revert digit
    decide
  have atType : (46 :: 65 :: others).isPrefixOf (type.byte :: 46 :: (formatNat stamp ++
      (46 :: 65 :: others) ++ right)) = false := by
    cases type <;> rfl
  have atDot : (46 :: 65 :: others).isPrefixOf (46 :: (formatNat stamp ++
      (46 :: 65 :: others) ++ right)) = false := by
    rw [same]
    simp [List.isPrefixOf, Ne.symm apart]
  change cut (46 :: 65 :: others) (type.byte :: 46 :: (formatNat stamp ++ (46 :: 65 :: others) ++
    right)) = _
  rw [cut, if_neg (by rw [atType]; simp), cut, if_neg (by rw [atDot]; simp), rest]
  rfl

theorem stampName_eq (type : NameType) (stamp suffix : Nat) :
    stampName type stamp suffix =
      [type.byte, 46] ++ formatNat stamp ++ [46, 65, 46] ++ formatHex3 suffix := by
  rw [stampName]
  rfl

variable (type : NameType) {stamp suffix : Nat}

theorem getFhdrStampTs_stampName (small : stamp < 2 ^ 32) :
    getFhdrStampTs (stampName type stamp suffix) = time4 stamp := by
  have shape : stampName type stamp suffix =
      type.byte :: 46 :: (formatNat stamp ++ 46 :: ([65, 46] ++ formatHex3 suffix)) := by
    rw [stampName_eq]
    simp
  have read := strtoul_formatNat (Nat.lt_trans small (by decide)) ([65, 46] ++ formatHex3 suffix)
  rw [shape, getFhdrStampTs, if_pos ⟨by simp, .inl rfl⟩]
  change time4 (strtoul 10 (formatNat stamp ++ 46 :: ([65, 46] ++ formatHex3 suffix)) % 2 ^ 32) = _
  rw [read, Nat.mod_eq_of_lt small]

theorem getFhdrStampHex_stampName (hex : suffix < 2 ^ 12) :
    getFhdrStampHex (stampName type stamp suffix) = suffix := by
  have place := cut_name type stamp [46] (formatHex3 suffix)
  have shape : utf8 ".A." = [46, 65, 46] := rfl
  rw [stampName_eq, getFhdrStampHex, shape, place]
  change strtoul 16 (formatHex3 suffix) % 2 ^ 12 = suffix
  rw [strtoul_formatHex3 hex, Nat.mod_eq_of_lt hex]

theorem fn2aidu_stampName (small : stamp < 2 ^ 32) (hex : suffix < 2 ^ 12) :
    fn2aidu (stampName type stamp suffix) =
      if time4 stamp ≤ 0 then 0
      else stamp * 2 ^ 12 + suffix + if type = .g then 2 ^ 44 else 0 := by
  have ts := @getFhdrStampTs_stampName type stamp suffix small
  have low := @getFhdrStampHex_stampName type stamp suffix hex
  have first : (stampName type stamp suffix).head? = some type.byte := rfl
  have second : (stampName type stamp suffix).getD 1 0 = 46 := rfl
  have place : cut (utf8 ".A") ((stampName type stamp suffix).drop 2) =
      some (formatNat stamp, 46 :: formatHex3 suffix) := by
    have found := cut_append 46 [65] (formatNat stamp) (46 :: formatHex3 suffix)
      (dot_not_mem_formatNat stamp)
    have shape : utf8 ".A" = [46, 65] := rfl
    rw [shape, ← found, stampName_eq]
    simp
  rw [fn2aidu, first, second, ts, low, place]
  rw [if_neg (by cases type <;> simp [NameType.byte])]
  by_cases negative : time4 stamp ≤ 0
  · rw [if_pos negative, if_pos negative]
  · have bits : stampBits (time4 stamp) = stamp := by
      unfold stampBits
      unfold time4 at negative ⊢
      split <;> omega
    rw [if_neg negative, if_neg negative]
    simp only [List.head?_cons, ne_eq, not_true_eq_false, and_false, if_false, bits]
    cases type <;> rfl

/-! ### The three forms agree -/

theorem aidu2fn_parts (positive : stamp < 2 ^ 31)
    (hex : suffix < 2 ^ 12) :
    aidu2fn (stamp * 2 ^ 12 + suffix + if type = .g then 2 ^ 44 else 0) =
      stampName type stamp suffix := by
  have value : (stamp * 2 ^ 12 + suffix + if type = .g then 2 ^ 44 else 0) % 2 ^ 12 = suffix := by
    cases type <;> simp <;> omega
  have upper : (stamp * 2 ^ 12 + suffix + if type = .g then 2 ^ 44 else 0) / 2 ^ 12 % 2 ^ 32 =
      stamp := by
    cases type <;> simp <;> omega
  have kind : aiduType (stamp * 2 ^ 12 + suffix + if type = .g then 2 ^ 44 else 0) = type := by
    have bit : ∀ value : Nat, (if value.testBit 44 then NameType.g else .m) =
        if value / 2 ^ 44 % 2 = 1 then .g else .m := by
      intro value
      rw [Nat.testBit_eq_decide_div_mod_eq]
      simp only [decide_eq_true_eq]
    rw [aiduType, bit]
    cases type with
    | m => exact if_neg (by rw [if_neg (by decide)]; omega)
    | g => exact if_pos (by rw [if_pos rfl]; omega)
  have plain : formatInt32 stamp = formatNat stamp := by
    rw [formatInt32, time4, if_pos positive, if_neg (by omega)]
  rw [aidu2fn, value, upper, kind, plain, stampName]

/-- A name that is written for a stamp stands for an id that gives the same name back exactly
when the stamp is no negative number.  The codes of eight characters agree with the ids. -/
theorem three_views (type : NameType) (stamp suffix : Nat) (positive : 0 < stamp)
    (small : stamp < 2 ^ 32) (hex : suffix < 2 ^ 12) :
    ((fn2aidu (stampName type stamp suffix) ≠ 0 ∧
        aidu2fn (fn2aidu (stampName type stamp suffix)) = stampName type stamp suffix) ↔
      stamp < 2 ^ 31) ∧
      (∀ aidu, aidu < 2 ^ 64 → aidc2aidu (aidu2aidc aidu) = aiduRaw aidu) ∧
      (∀ code : Bytes, code.length = 8 → (∀ byte ∈ code, byte ∈ aidcTable) →
        aidc2aidu code < 2 ^ 45 → aidu2aidc (aidc2aidu code) = code) := by
  refine ⟨?_, fun aidu _ => aidc2aidu_aidu2aidc aidu,
    fun code length alphabet raw => aidu2aidc_aidc2aidu length alphabet raw⟩
  rw [fn2aidu_stampName type small hex]
  constructor
  · rintro ⟨some, _⟩
    by_contra large
    refine some (if_pos ?_)
    unfold time4
    rw [if_neg large]
    omega
  · intro signed
    have above : ¬ time4 stamp ≤ 0 := by
      unfold time4
      rw [if_pos signed]
      omega
    rw [if_neg above]
    exact ⟨by omega, aidu2fn_parts type signed hex⟩

theorem three_views_2026 :
    (fn2aidu (stampName .m 1767225600 0x1EA) ≠ 0 ∧
        aidu2fn (fn2aidu (stampName .m 1767225600 0x1EA)) = stampName .m 1767225600 0x1EA) ↔
      1767225600 < 2 ^ 31 :=
  (three_views .m 1767225600 0x1EA (by decide) (by decide) (by decide)).1

/-- A stamp from 2038 on makes a name without an id. -/
theorem no_id_from_2038 :
    stampName .m (2 ^ 31) 0x1EA = utf8 "M.2147483648.A.1EA" ∧
      fn2aidu (stampName .m (2 ^ 31) 0x1EA) = 0 ∧
      aidu2fn (2 ^ 31 * 2 ^ 12 + 0x1EA) = utf8 "M.-2147483648.A.1EA" := by
  decide

end Pttbbs.Common.Aids
