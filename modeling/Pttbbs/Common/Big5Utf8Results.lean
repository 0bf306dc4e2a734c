/-
The results of the bounded conversions.

A result is the longest cut of the whole conversion.  It has a NUL inside exactly when a
character in it is mapped to one, and a conversion to UTF-8 within one buffer is shorter
exactly when characters behind the bytes that are copied would have fit.
-/

import Pttbbs.Common.Big5Utf8Cuts

namespace Pttbbs.Common.Multibyte

open Pttbbs.Lib

/-! ### NUL -/

theorem zero_mem_big5Bytes {b5 : UInt16} (some : b5 ≠ 0) :
    0 ∈ big5Bytes b5 ↔ b5 > 0xFF ∧ b5 &&& 0xFF = 0 := by
  have number : b5.toNat ≠ 0 := fun zero => some (UInt16.toNat_inj.mp zero)
  have masked : (b5 &&& 0xFF).toNat = b5.toNat % 256 := by
    rw [UInt16.toNat_and]
    exact Nat.and_two_pow_sub_one_eq_mod b5.toNat 8
  have wide : b5 > 0xFF ↔ 0xFF < b5.toNat := UInt16.lt_iff_toNat_lt
  have high : (b5 >>> 8).toUInt8.toNat = b5.toNat / 256 := by
    rw [UInt16.toNat_toUInt8, UInt16.toNat_shiftRight]
    change b5.toNat >>> 8 % 256 = _
    have bound := b5.toNat_lt
    rw [Nat.shiftRight_eq_div_pow]
    omega
  have low : (b5 &&& 0xFF).toUInt8.toNat = b5.toNat % 256 := by
    rw [UInt16.toNat_toUInt8, masked]
    omega
  have zero : b5 &&& 0xFF = 0 ↔ b5.toNat % 256 = 0 := by
    rw [← UInt16.toNat_inj, masked]
    rfl
  rw [big5Bytes, zero]
  by_cases two : b5 > 0xFF
  · have large := wide.mp two
    simp only [two, if_true, List.mem_cons, List.not_mem_nil, or_false, ← UInt8.toNat_inj, high,
      low, true_and]
    change 0 = _ ∨ 0 = _ ↔ _
    omega
  · have small : ¬ 0xFF < b5.toNat := fun large => two (wide.mpr large)
    simp only [two, if_false, List.mem_singleton, ← UInt8.toNat_inj, UInt16.toNat_toUInt8,
      false_and, iff_false]
    change ¬ 0 = _
    omega

theorem big5Code_ne_zero (u2bTable : Nat → UInt16) (ucs : Int) : big5Code u2bTable ucs ≠ 0 := by
  rw [big5Code]
  generalize (if ucs ≥ 0 ∧ ucs < 0x10000 then u2bTable ucs.toNat else 0) = b5
  by_cases zero : b5 = 0
  · rw [if_pos zero]
    decide
  · rw [if_neg zero]
    exact zero

theorem zero_eq_ofNat {value : Nat} (small : value < 256) :
    0 = UInt8.ofNat value ↔ value = 0 := by
  rw [← UInt8.toNat_inj, toNat_ofNat_lt small]
  exact eq_comm

theorem zero_mem_utf8Bytes (ucs2 : UInt16) : 0 ∈ utf8Bytes ucs2 ↔ ucs2 = 0 := by
  have bound := ucs2.toNat_lt
  have number : ucs2 = 0 ↔ ucs2.toNat = 0 := by
    rw [← UInt16.toNat_inj]
    rfl
  rw [number, utf8Bytes]
  generalize ucs2.toNat = value at bound
  by_cases scalar : IsScalar value
  · rw [if_pos scalar, encodeUtf8]
    split
    · rw [List.mem_singleton, zero_eq_ofNat (by omega)]
    · split
      · simp only [List.mem_cons, List.not_mem_nil, or_false]
        rw [zero_eq_ofNat (by omega), zero_eq_ofNat (by omega)]
        omega
      · simp only [List.mem_cons, List.not_mem_nil, or_false]
        rw [zero_eq_ofNat (by omega), zero_eq_ofNat (by omega), zero_eq_ofNat (by omega)]
        omega
  · rw [if_neg scalar]
    unfold IsScalar at scalar
    simp only [List.not_mem_nil, false_iff]
    omega

/-! ### What a conversion is to write -/

/-- The result is the longest cut of the units of these characters: shorter than `maxLen`, with
NUL behind it and none inside. -/
def WritesCut {Item : Type} (unit : Item → Bytes) (items : List Item) (maxLen : Nat)
    (result : Option Buffers) : Prop :=
  ∃ out bytes, result = some out ∧ bytes ++ [0] <+: out.dest ∧ bytes.length < maxLen ∧
    0 ∉ bytes ∧ LongestCut unit items (maxLen - 1) bytes

/-- The result is all units of these characters, with NUL behind them. -/
def WritesAll {Item : Type} (unit : Item → Bytes) (items : List Item) (result : Option Buffers) :
    Prop :=
  ∃ out, result = some out ∧ items.flatMap unit ++ [0] <+: out.dest

theorem length_eq_or_zero_mem {left right dest : Bytes} (leftStands : left ++ [0] <+: dest)
    (rightStands : right ++ [0] <+: dest) (short : left.length ≤ right.length) :
    left.length = right.length ∨ 0 ∈ right := by
  by_cases same : left.length = right.length
  · exact .inl same
  · right
    have inside : left ++ [0] <+: right :=
      List.prefix_of_prefix_length_le leftStands
        ((List.prefix_append right [0]).trans rightStands)
        (by rw [List.length_append, List.length_singleton]; omega)
    exact inside.subset (by simp)

theorem writesCut_iff {Item : Type} {unit : Item → Bytes} {items written : List Item}
    {maxLen : Nat} {result : Option Buffers} {out : Buffers} (room : 0 < maxLen)
    (value : result = some out)
    (stands : fit unit (maxLen - 1) written ++ [0] <+: out.dest)
    (shorter : fit unit (maxLen - 1) written <+: fit unit (maxLen - 1) items) :
    WritesCut unit items maxLen result ↔
      0 ∉ fit unit (maxLen - 1) items ∧
        fit unit (maxLen - 1) written = fit unit (maxLen - 1) items := by
  have bound := fit_length_le unit (maxLen - 1) items
  constructor
  · rintro ⟨other, bytes, same, otherStands, _, clean, longest⟩
    rw [longestCut_iff] at longest
    rw [value] at same
    injection same with same
    subst longest
    rw [← same] at otherStands
    refine ⟨clean, shorter.eq_of_length ?_⟩
    rcases length_eq_or_zero_mem stands otherStands shorter.length_le with equal | nul
    · exact equal
    · exact absurd nul clean
  · rintro ⟨clean, same⟩
    rw [same] at stands
    exact ⟨out, _, value, stands, by omega, clean, (longestCut_iff _ _ _ _).mpr rfl⟩

/-! ### The conversions -/

theorem utf8ToBig5N_writes {u2bTable : Nat → UInt16} {ctx : Utf8Ctx} {srcLen : Option Nat}
    {maxLen : Nat} {buffers : Buffers} (ready : ctx.buf.length = 5) (room : 0 < maxLen)
    (size : maxLen ≤ buffers.dest.length)
    (single : buffers.shared = true → ∀ byte ∈ sourceFrom buffers.cells srcLen 0,
      byte.toNat < 0x80 → (big5Bytes (big5Code u2bTable byte.toNat)).length = 1) :
    ∃ out, utf8ToBig5N u2bTable ctx srcLen maxLen buffers = some out ∧
      fit (big5Unit u2bTable) (maxLen - 1)
        (readFrom [] (sourceFrom buffers.cells srcLen 0)) ++ [0] <+: out.dest := by
  have short := sourceFrom_length_le buffers.cells srcLen 0
  have rounds := @writesBig5 u2bTable srcLen maxLen (2 * buffers.cells.length + 1) (utf8Init ctx)
    [] [] buffers 0 (awaits_utf8Init ready) size List.nil_prefix room (fun _ => Nat.le_refl _)
    single (by rw [if_pos rfl]; omega)
  obtain ⟨out, result, grows⟩ := rounds
  refine ⟨out, ?_, ?_⟩
  · rw [utf8ToBig5N, if_neg (by omega)]
    exact result
  · have written := grows.written
    rw [List.nil_append] at written
    exact written

def big5Read (srcLen : Option Nat) (maxLen : Nat) (buffers : Buffers) : Bytes :=
  if buffers.shared then (sourceFrom buffers.cells srcLen 0).take (maxLen - 1)
  else sourceFrom buffers.cells srcLen 0

theorem takeWhile_nul (bytes : Bytes) :
    (bytes ++ [0]).takeWhile (· ≠ 0) = bytes.takeWhile (· ≠ 0) := by
  induction bytes with
  | nil => rfl
  | cons byte rest ih => rw [List.cons_append, List.takeWhile_cons, List.takeWhile_cons, ih]

theorem sourceFrom_zero (cells : Bytes) (srcLen : Option Nat) :
    sourceFrom cells srcLen 0 =
      ((srcLen.map cells.take).getD cells).takeWhile (· ≠ 0) := by
  rw [sourceFrom, List.drop_zero]

theorem sourceFrom_big5Copy (srcLen : Option Nat) (maxLen : Nat) (source : Bytes) :
    sourceFrom (big5Copy srcLen maxLen source) srcLen 0 =
      (sourceFrom source srcLen 0).take (maxLen - 1) := by
  rw [sourceFrom_zero, sourceFrom_zero]
  cases srcLen with
  | none =>
      simp only [big5Copy, Option.map_none, Option.getD_none]
      rw [takeWhile_nul, ← List.take_takeWhile, List.takeWhile_idem]
  | some count =>
      simp only [big5Copy, Option.map_some, Option.getD_some]
      rw [← List.take_takeWhile, ← List.take_takeWhile]
      by_cases long : count ≥ maxLen
      · rw [if_pos long, takeWhile_nul, ← List.take_takeWhile, List.takeWhile_idem,
          List.take_take, List.take_take, Nat.min_comm]
      · rw [if_neg long, takeWhile_nul, ← List.take_takeWhile, List.take_take, List.take_take,
          Nat.min_self, Nat.min_eq_right (by omega)]

theorem big5ToUtf8N_writes {b2uTable : UInt16 → UInt16} {ctx : Utf8Ctx} {srcLen : Option Nat}
    {maxLen : Nat} {buffers : Buffers} (ready : ctx.buf.length = 5) (room : 0 < maxLen)
    (size : maxLen ≤ buffers.dest.length) :
    ∃ out, big5ToUtf8N b2uTable ctx srcLen maxLen buffers = some out ∧
      fit (utf8Unit b2uTable) (maxLen - 1)
        (big5Chars (big5Read srcLen maxLen buffers)) ++ [0] <+: out.dest := by
  have written : ∀ apart : Buffers, apart.shared = false → apart.dest = buffers.dest →
      ∃ out, (big5ToUtf8Loop b2uTable srcLen maxLen (apart.source.length + 1) ctx apart 0 0).map
          (fun last => { buffers with dest := (last.1.write last.2 0).dest }) = some out ∧
        fit (utf8Unit b2uTable) (maxLen - 1)
          (big5Chars (sourceFrom apart.source srcLen 0)) ++ [0] <+: out.dest := by
    intro apart alone same
    have short := sourceFrom_length_le apart.source srcLen 0
    have cells : apart.cells = apart.source := by rw [Buffers.cells, alone]; rfl
    have rounds := @writesUtf8 b2uTable srcLen maxLen (apart.source.length + 1) ctx apart [] 0
      ready (by rw [same]; exact size) List.nil_prefix room alone (by rw [cells]; omega)
    obtain ⟨out, outIdx, result, grows⟩ := rounds
    have stands := grows.written
    rw [List.nil_append, cells] at stands
    rw [List.length_nil] at result
    rw [result]
    exact ⟨_, rfl, stands⟩
  rw [big5ToUtf8N, if_neg (by omega), big5Read]
  by_cases same : buffers.shared = true
  · have cells : buffers.cells = buffers.dest := if_pos same
    rw [if_pos same, if_pos same, cells, ← sourceFrom_big5Copy]
    exact written _ rfl rfl
  · have cells : buffers.cells = buffers.source := if_neg same
    rw [if_neg same, if_neg same, cells]
    exact written buffers (Bool.eq_false_iff.mpr same) rfl

theorem big5Chars_single (byte : UInt8) :
    big5Chars [byte] = if byte &&& 0x80 ≠ 0 then [] else [.single byte] := rfl

theorem big5Chars_take (text : Bytes) (count : Nat) :
    big5Chars (text.take count) <+: big5Chars text := by
  fun_induction big5Chars text generalizing count with
  | case1 =>
      rw [List.take_nil]
      exact List.prefix_refl _
  | case2 byte high =>
      cases count with
      | zero => exact List.nil_prefix
      | succ count =>
          rw [List.take_succ_cons, List.take_nil, big5Chars_single, if_pos high]
  | case3 byte low =>
      cases count with
      | zero => exact List.nil_prefix
      | succ count =>
          rw [List.take_succ_cons, List.take_nil, big5Chars_single, if_neg low]
  | case4 byte next rest pair ih =>
      cases count with
      | zero => exact List.nil_prefix
      | succ count =>
          cases count with
          | zero =>
              rw [List.take_succ_cons, List.take_zero, big5Chars_single, if_pos pair.1]
              exact List.nil_prefix
          | succ count =>
              rw [List.take_succ_cons, List.take_succ_cons, big5Chars, if_pos pair]
              exact (List.prefix_cons_inj _).mpr (ih count)
  | case5 byte next rest unpaired ih =>
      cases count with
      | zero => exact List.nil_prefix
      | succ count =>
          cases count with
          | zero =>
              rw [List.take_succ_cons, List.take_zero, big5Chars_single]
              split
              · exact List.nil_prefix
              · exact List.prefix_append [Big5Char.single byte] _
          | succ count =>
              rw [List.take_succ_cons, List.take_succ_cons, big5Chars, if_neg unpaired,
                ← List.take_succ_cons]
              exact (List.prefix_cons_inj _).mpr (ih (count + 1))

/-! ### When the conversions only truncate -/

section Tables

variable (u2bTable : Nat → UInt16) (b2uTable : UInt16 → UInt16)

/-- A character of the source with a code of two bytes of which the second is NUL. -/
def NulCode : Token → Prop
  | .char bytes =>
      big5Code u2bTable (codePoint bytes) > 0xFF ∧ big5Code u2bTable (codePoint bytes) &&& 0xFF = 0
  | .error => False

/-- The characters of a source of UTF-8.  What is no sequence, and a sequence that is not
complete, are characters too. -/
def utf8Chars (srcLen : Option Nat) (buffers : Buffers) : List Token :=
  readFrom [] (sourceFrom buffers.cells srcLen 0)

def sourceChars (srcLen : Option Nat) (buffers : Buffers) : List Big5Char :=
  big5Chars (sourceFrom buffers.cells srcLen 0)

/-- In one buffer, a character of ASCII must have a code of one byte. -/
def AsciiSingle (srcLen : Option Nat) (buffers : Buffers) : Prop :=
  buffers.shared = true → ∀ byte ∈ sourceFrom buffers.cells srcLen 0,
    byte.toNat < 0x80 → big5Code u2bTable byte.toNat ≤ 0xFF

/-- In one buffer, a character that still fits but does not lie in the first `maxLen - 1` bytes
of the source must be one that has no bytes. -/
def CopySuffices (srcLen : Option Nat) (maxLen : Nat) (buffers : Buffers) : Prop :=
  buffers.shared = true →
    ∀ char ∈ (fitting (utf8Unit b2uTable) (maxLen - 1) (sourceChars srcLen buffers)).drop
        (big5Chars ((sourceFrom buffers.cells srcLen 0).take (maxLen - 1))).length,
      ¬ IsScalar (utf8Value b2uTable char).toNat

structure Conversions (ctx : Utf8Ctx) : Prop where
  /-- With room for everything, all is converted. -/
  wholeBig5 : ∀ (srcLen : Option Nat) (maxLen : Nat) (buffers : Buffers),
    buffers.shared = false → maxLen ≤ buffers.dest.length →
    ((utf8Chars srcLen buffers).flatMap (big5Unit u2bTable)).length < maxLen →
    WritesAll (big5Unit u2bTable) (utf8Chars srcLen buffers)
      (utf8ToBig5N u2bTable ctx srcLen maxLen buffers)
  /-- Otherwise, and in one buffer, the longest cut of that is written. -/
  big5 : ∀ (srcLen : Option Nat) (maxLen : Nat) (buffers : Buffers),
    0 < maxLen → maxLen ≤ buffers.dest.length → AsciiSingle u2bTable srcLen buffers →
    (WritesCut (big5Unit u2bTable) (utf8Chars srcLen buffers) maxLen
        (utf8ToBig5N u2bTable ctx srcLen maxLen buffers) ↔
      ∀ token ∈ fitting (big5Unit u2bTable) (maxLen - 1) (utf8Chars srcLen buffers),
        ¬ NulCode u2bTable token)
  wholeUtf8 : ∀ (srcLen : Option Nat) (maxLen : Nat) (buffers : Buffers),
    buffers.shared = false → maxLen ≤ buffers.dest.length →
    ((sourceChars srcLen buffers).flatMap (utf8Unit b2uTable)).length < maxLen →
    WritesAll (utf8Unit b2uTable) (sourceChars srcLen buffers)
      (big5ToUtf8N b2uTable ctx srcLen maxLen buffers)
  utf8 : ∀ (srcLen : Option Nat) (maxLen : Nat) (buffers : Buffers),
    0 < maxLen → maxLen ≤ buffers.dest.length →
    (WritesCut (utf8Unit b2uTable) (sourceChars srcLen buffers) maxLen
        (big5ToUtf8N b2uTable ctx srcLen maxLen buffers) ↔
      (∀ char ∈ fitting (utf8Unit b2uTable) (maxLen - 1) (sourceChars srcLen buffers),
          utf8Value b2uTable char ≠ 0) ∧
        CopySuffices b2uTable srcLen maxLen buffers)

variable {u2bTable b2uTable}

theorem big5Bytes_length_le {b5 : UInt16} (small : b5 ≤ 0xFF) : (big5Bytes b5).length = 1 := by
  rw [big5Bytes, if_neg (UInt16.not_lt.mpr small)]
  rfl

theorem zero_mem_fit_big5 (room : Nat) (tokens : List Token) :
    0 ∉ fit (big5Unit u2bTable) room tokens ↔
      ∀ token ∈ fitting (big5Unit u2bTable) room tokens, ¬ NulCode u2bTable token := by
  have each : ∀ token, 0 ∈ big5Unit u2bTable token ↔ NulCode u2bTable token := by
    intro token
    cases token with
    | char bytes => exact zero_mem_big5Bytes (big5Code_ne_zero _ _)
    | error =>
        rw [big5Unit, NulCode, List.mem_singleton]
        decide
  simp only [fit, List.mem_flatMap, each, not_exists, not_and]

theorem zero_mem_fit_utf8 (room : Nat) (chars : List Big5Char) :
    0 ∉ fit (utf8Unit b2uTable) room chars ↔
      ∀ char ∈ fitting (utf8Unit b2uTable) room chars, utf8Value b2uTable char ≠ 0 := by
  simp only [fit, List.mem_flatMap, utf8Unit, zero_mem_utf8Bytes, not_exists, not_and, ne_eq]

theorem utf8Unit_eq_nil (char : Big5Char) :
    utf8Unit b2uTable char = [] ↔ ¬ IsScalar (utf8Value b2uTable char).toNat := by
  rw [utf8Unit, utf8Bytes]
  by_cases scalar : IsScalar (utf8Value b2uTable char).toNat
  · rw [if_pos scalar]
    refine iff_of_false (fun empty => ?_) (not_not_intro scalar)
    have formed := (wellFormed_encodeUtf8 scalar).1
    rw [empty] at formed
    cases formed
  · rw [if_neg scalar]
    exact iff_of_true rfl scalar

theorem fit_copy (srcLen : Option Nat) (maxLen : Nat) (buffers : Buffers) :
    fit (utf8Unit b2uTable) (maxLen - 1) (big5Chars (big5Read srcLen maxLen buffers)) =
        fit (utf8Unit b2uTable) (maxLen - 1) (sourceChars srcLen buffers) ↔
      CopySuffices b2uTable srcLen maxLen buffers := by
  rw [CopySuffices, big5Read]
  by_cases same : buffers.shared = true
  · rw [if_pos same]
    have front := big5Chars_take (sourceFrom buffers.cells srcLen 0) (maxLen - 1)
    rw [sourceChars, fit_front _ front, List.self_eq_append_right, List.flatMap_eq_nil_iff]
    simp only [same, forall_true_left, utf8Unit_eq_nil]
  · rw [if_neg same]
    exact iff_of_true rfl (fun shared => absurd shared same)

theorem big5Read_front (srcLen : Option Nat) (maxLen : Nat) (buffers : Buffers) :
    big5Chars (big5Read srcLen maxLen buffers) <+: sourceChars srcLen buffers := by
  rw [big5Read]
  split
  · exact big5Chars_take _ _
  · exact List.prefix_refl _

theorem conversions (u2bTable : Nat → UInt16) (b2uTable : UInt16 → UInt16) (ctx : Utf8Ctx)
    (ready : ctx.buf.length = 5) : Conversions u2bTable b2uTable ctx where
  wholeBig5 srcLen maxLen buffers apart size room := by
    have written := @utf8ToBig5N_writes u2bTable ctx srcLen maxLen buffers ready (by omega) size
      (fun shared => absurd (apart.symm.trans shared) Bool.false_ne_true)
    obtain ⟨out, result, stands⟩ := written
    rw [← utf8Chars, fit_of_length_le _ (Nat.le_sub_one_of_lt room)] at stands
    exact ⟨out, result, stands⟩
  big5 srcLen maxLen buffers room size single := by
    obtain ⟨out, result, stands⟩ := utf8ToBig5N_writes ready room size
      (fun shared byte member ascii => big5Bytes_length_le (single shared byte member ascii))
    change fit _ _ (utf8Chars srcLen buffers) ++ [0] <+: out.dest at stands
    rw [writesCut_iff room result stands (List.prefix_refl _), zero_mem_fit_big5, and_iff_left rfl]
  wholeUtf8 srcLen maxLen buffers apart size room := by
    have written := @big5ToUtf8N_writes b2uTable ctx srcLen maxLen buffers ready (by omega) size
    obtain ⟨out, result, stands⟩ := written
    rw [big5Read, apart, if_neg Bool.false_ne_true, ← sourceChars,
      fit_of_length_le _ (Nat.le_sub_one_of_lt room)] at stands
    exact ⟨out, result, stands⟩
  utf8 srcLen maxLen buffers room size := by
    obtain ⟨out, result, stands⟩ := big5ToUtf8N_writes ready room size
    have shorter : fit (utf8Unit b2uTable) (maxLen - 1) (big5Chars (big5Read srcLen maxLen buffers))
        <+: fit (utf8Unit b2uTable) (maxLen - 1) (sourceChars srcLen buffers) := by
      rw [fit_front _ (big5Read_front srcLen maxLen buffers)]
      exact List.prefix_append _ _
    rw [writesCut_iff room result stands shorter, zero_mem_fit_utf8, fit_copy]

end Tables

/-! ### A code without bytes -/

def surrogateSource : Bytes := [0xD8, 0x7F, 0x41, 0]

def unnamedU2b (ucs : Nat) : UInt16 := UInt16.ofNat ucs

def inPlace : Buffers := { shared := true, source := [], dest := surrogateSource }

def inTwo : Buffers := { shared := false, source := surrogateSource, dest := [0, 0, 0] }

/-- In two buffers the letter is written, in one it is not. -/
theorem conversions_surrogate :
    freshCtx.buf.length = 5 ∧
      WritesCut (utf8Unit id) (sourceChars none inTwo) 3
        (big5ToUtf8N id freshCtx none 3 inTwo) ∧
      ¬ WritesCut (utf8Unit id) (sourceChars none inPlace) 3
        (big5ToUtf8N id freshCtx none 3 inPlace) := by
  have tables := conversions unnamedU2b id freshCtx rfl
  refine ⟨rfl, ?_, ?_⟩
  · rw [tables.utf8 none 3 inTwo (by decide) (by decide)]
    refine ⟨by decide, fun shared => ?_⟩
    cases shared
  · rw [tables.utf8 none 3 inPlace (by decide) (by decide)]
    rintro ⟨_, enough⟩
    have other := enough rfl (.single 0x41) (by decide)
    revert other
    decide

theorem not_only_truncates :
    ¬ ∀ (u2bTable : Nat → UInt16) (b2uTable : UInt16 → UInt16) (ctx : Utf8Ctx)
      (srcLen : Option Nat) (maxLen : Nat) (buffers : Buffers), ctx.buf.length = 5 →
      0 < maxLen → maxLen ≤ buffers.dest.length →
      WritesCut (big5Unit u2bTable) (utf8Chars srcLen buffers) maxLen
          (utf8ToBig5N u2bTable ctx srcLen maxLen buffers) ∧
        WritesCut (utf8Unit b2uTable) (sourceChars srcLen buffers) maxLen
          (big5ToUtf8N b2uTable ctx srcLen maxLen buffers) := by
  intro all
  obtain ⟨out, bytes, result, stands, _, clean, _, _, longest⟩ :=
    (all unnamedU2b id freshCtx none 3 inPlace rfl (by decide) (by decide)).2
  have written : big5ToUtf8N id freshCtx none 3 inPlace =
      some { inPlace with dest := [0, 0x7F, 0x41, 0] } := by
    decide
  rw [written] at result
  injection result with result
  have some := longest 2 (by decide)
  rw [← result] at stands
  cases bytes with
  | nil => exact absurd some (by decide)
  | cons byte rest =>
      obtain ⟨_, joined⟩ := stands
      injection joined with first _
      rw [first] at clean
      exact clean List.mem_cons_self

end Pttbbs.Common.Multibyte
