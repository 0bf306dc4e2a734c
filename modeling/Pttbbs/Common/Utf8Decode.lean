/-
Streams of UTF-8.

A byte that breaks a sequence is reported with the error and not kept.  The readers of a
stream feed it again, and with that they find the well-formed sequences and no others.
-/

import Pttbbs.Common.Utf8Ctx

namespace Pttbbs.Common.Multibyte

open Pttbbs.Lib

inductive Reading where
  | char (ucs : Int) (mb : Bytes)
  | error
deriving DecidableEq, Repr

def takeByte (ctx : Utf8Ctx) (byte : UInt8) : List Reading × Utf8Ctx :=
  let (ready, fed) := utf8AddByte ctx byte
  if ready then ([.char (utf8GetUcs fed).1 (utf8ToMb fed)], (utf8GetUcs fed).2)
  else if utf8IsError fed then ([.error], fed)
  else ([], fed)

/-- The body of the readers' loops: after an error with bytes pending, the byte is read again. -/
def decodeByte (ctx : Utf8Ctx) (byte : UInt8) : List Reading × Utf8Ctx :=
  let first := takeByte ctx byte
  if first.1 = [.error] ∧ utf8Pending ctx ≠ 0 then
    let again := takeByte first.2 byte
    (first.1 ++ again.1, again.2)
  else first

def decode (ctx : Utf8Ctx) : Bytes → List Reading × Utf8Ctx
  | [] => ([], ctx)
  | byte :: rest =>
      let later := decode (decodeByte ctx byte).2 rest
      ((decodeByte ctx byte).1 ++ later.1, later.2)

/-! ### The context reads as the grammar says -/

def reading : Token → Reading
  | .char bytes => .char (codePoint bytes) bytes
  | .error => .error

theorem takeByte_takes {held : Bytes} {byte : UInt8} {ctx : Utf8Ctx}
    (takes : Takes held byte (utf8AddByte ctx byte)) :
    (isOpen (held ++ [byte]) = true ∧ (takeByte ctx byte).1 = [] ∧
        Awaits (takeByte ctx byte).2 (held ++ [byte])) ∨
      (isOpen (held ++ [byte]) = false ∧ wellFormed (held ++ [byte]) = true ∧
        (takeByte ctx byte).1 = [reading (.char (held ++ [byte]))] ∧
        Awaits (takeByte ctx byte).2 []) ∨
      (isOpen (held ++ [byte]) = false ∧ wellFormed (held ++ [byte]) = false ∧
        (takeByte ctx byte).1 = [.error] ∧ Awaits (takeByte ctx byte).2 []) := by
  generalize result : utf8AddByte ctx byte = outcome at takes
  rw [takeByte, result]
  cases takes with
  | more opens quiet awaits =>
      left
      simp only [Bool.false_eq_true, if_false, quiet]
      exact ⟨opens, trivial, awaits⟩
  | last formed holds =>
      right
      left
      obtain ⟨value, awaits⟩ := utf8GetUcs_holds holds
      simp only [if_true, value, holds.stored]
      exact ⟨not_isOpen_of_wellFormed formed, formed, rfl, awaits⟩
  | wrong closed illFormed reports awaits =>
      right
      right
      simp only [Bool.false_eq_true, if_false, reports, if_true]
      exact ⟨closed, illFormed, trivial, awaits⟩

theorem decodeByte_scans {ctx : Utf8Ctx} {held : Bytes} (awaits : Awaits ctx held)
    (byte : UInt8) :
    (decodeByte ctx byte).1 = (scanByte held byte).1.map reading ∧
      Awaits (decodeByte ctx byte).2 (scanByte held byte).2 := by
  have pending := utf8Pending_awaits awaits
  rw [decodeByte, scanByte]
  rcases takeByte_takes (utf8AddByte_takes awaits byte) with
    ⟨opens, found, next⟩ | ⟨closed, formed, found, next⟩ | ⟨closed, illFormed, found, next⟩
  · simp only [found, opens, List.nil_eq, reduceCtorEq, false_and, if_false, if_true]
    exact ⟨rfl, next⟩
  · simp only [found, closed, formed, reading, List.cons.injEq, reduceCtorEq, false_and, if_false,
      Bool.false_eq_true, if_true]
    exact ⟨rfl, next⟩
  · simp only [found, closed, illFormed, true_and, ne_eq, pending, Bool.false_eq_true, if_false]
    by_cases empty : held = []
    · simp only [empty, not_true_eq_false, if_false, if_true]
      exact ⟨found, next⟩
    · simp only [empty, not_false_eq_true, if_true, if_false]
      rcases takeByte_takes (utf8AddByte_takes next byte) with
        ⟨begins, again, last⟩ | ⟨ends, alone, again, last⟩ | ⟨ends, wrong, again, last⟩
      · rw [List.nil_append] at begins
        simp only [again, begins, if_true]
        exact ⟨rfl, last⟩
      · rw [List.nil_append] at ends alone
        simp only [again, ends, alone, Bool.false_eq_true, if_false, if_true]
        exact ⟨rfl, last⟩
      · rw [List.nil_append] at ends wrong
        simp only [again, ends, wrong, Bool.false_eq_true, if_false]
        exact ⟨rfl, last⟩

theorem decode_scansFrom {ctx : Utf8Ctx} {held : Bytes} (awaits : Awaits ctx held)
    (text : Bytes) :
    (decode ctx text).1 = (scanFrom held text).1.map reading ∧
      Awaits (decode ctx text).2 (scanFrom held text).2 := by
  induction text generalizing ctx held with
  | nil => exact ⟨rfl, awaits⟩
  | cons byte rest ih =>
      obtain ⟨now, next⟩ := decodeByte_scans awaits byte
      obtain ⟨later, last⟩ := ih next
      refine ⟨?_, last⟩
      rw [decode, scanFrom, List.map_append, ← now, ← later]

theorem decode_scans {ctx : Utf8Ctx} (size : ctx.buf.length = 5) (text : Bytes) :
    (decode (utf8Init ctx) text).1 = (scan text).1.map reading ∧
      Awaits (decode (utf8Init ctx) text).2 (scan text).2 :=
  decode_scansFrom (awaits_utf8Init size) text

/-! ### The decoder accepts the well-formed sequences -/

def charOf (bytes : Bytes) : Reading := .char (codePoint bytes) bytes

/-- The decoder with its readers, from a fresh context. -/
structure DecodesUtf8 (ctx : Utf8Ctx) : Prop where
  /-- A character comes exactly with the last byte of a well-formed sequence. -/
  chars : ∀ (text : Bytes) (byte : UInt8) (ucs : Int) (mb : Bytes),
    .char ucs mb ∈ (decodeByte (decode (utf8Init ctx) text).2 byte).1 ↔
      mb <:+ text ++ [byte] ∧ wellFormed mb = true ∧ ucs = codePoint mb
  /-- An error comes exactly where the bytes held and the new one begin no sequence. -/
  errors : ∀ (text : Bytes) (byte : UInt8),
    .error ∈ (decodeByte (decode (utf8Init ctx) text).2 byte).1 ↔
      ¬ (isOpen (opened text ++ [byte]) = true ∨ wellFormed (opened text ++ [byte]) = true)
  /-- The texts read without an error and to the end are the rows of well-formed sequences. -/
  texts : ∀ (text : Bytes) (seqs : List Bytes),
    (decode (utf8Init ctx) text).1 = seqs.map charOf ∧
        utf8Pending (decode (utf8Init ctx) text).2 = 0 ↔
      seqs.flatten = text ∧ ∀ seq ∈ seqs, wellFormed seq = true
  /-- The encoding of a scalar value is read back. -/
  encodes : ∀ value : Nat, IsScalar value →
    (utf8FromUcs ctx value).1 = (utf8ToMb (utf8FromUcs ctx value).2).length ∧
      (decode (utf8Init ctx) (utf8ToMb (utf8FromUcs ctx value).2)).1 =
        [.char value (utf8ToMb (utf8FromUcs ctx value).2)]
  /-- A character that was read has the bytes it was read from as its encoding. -/
  reencodes : ∀ (text : Bytes) (byte : UInt8) (ucs : Int) (mb : Bytes),
    .char ucs mb ∈ (decodeByte (decode (utf8Init ctx) text).2 byte).1 →
      utf8ToMb (utf8FromUcs ctx ucs).2 = mb
  /-- A value that is no scalar value has no encoding. -/
  refuses : ∀ ucs : Int, ¬ (0 ≤ ucs ∧ IsScalar ucs.toNat) → (utf8FromUcs ctx ucs).1 = 0

theorem reading_injective : Function.Injective reading := by
  intro left right same
  cases left with
  | error =>
      cases right with
      | error => rfl
      | char => cases same
  | char bytes =>
      cases right with
      | error => cases same
      | char others =>
          injection same with _ same
          rw [same]

theorem char_mem_decodeByte {ctx : Utf8Ctx} (size : ctx.buf.length = 5) (text mb : Bytes)
    (byte : UInt8) (ucs : Int) :
    .char ucs mb ∈ (decodeByte (decode (utf8Init ctx) text).2 byte).1 ↔
      mb <:+ text ++ [byte] ∧ wellFormed mb = true ∧ ucs = codePoint mb := by
  rw [(decodeByte_scans (decode_scans size text).2 byte).1, List.mem_map]
  constructor
  · rintro ⟨token, member, same⟩
    cases token with
    | error => cases same
    | char bytes =>
        injection same with value stored
        rw [← stored, ← value]
        obtain ⟨suffix, formed⟩ := (char_mem_scanByte text bytes byte).mp member
        exact ⟨suffix, formed, rfl⟩
  · rintro ⟨suffix, formed, value⟩
    refine ⟨.char mb, (char_mem_scanByte text mb byte).mpr ⟨suffix, formed⟩, ?_⟩
    rw [reading, value]

theorem error_mem_decodeByte {ctx : Utf8Ctx} (size : ctx.buf.length = 5) (text : Bytes)
    (byte : UInt8) :
    .error ∈ (decodeByte (decode (utf8Init ctx) text).2 byte).1 ↔
      ¬ (isOpen (opened text ++ [byte]) = true ∨ wellFormed (opened text ++ [byte]) = true) := by
  rw [(decodeByte_scans (decode_scans size text).2 byte).1, ← error_mem_scanByte]
  exact List.mem_map_of_injective (a := Token.error) reading_injective

theorem decode_texts {ctx : Utf8Ctx} (size : ctx.buf.length = 5) (text : Bytes)
    (seqs : List Bytes) :
    (decode (utf8Init ctx) text).1 = seqs.map charOf ∧
        utf8Pending (decode (utf8Init ctx) text).2 = 0 ↔
      seqs.flatten = text ∧ ∀ seq ∈ seqs, wellFormed seq = true := by
  obtain ⟨found, awaits⟩ := decode_scans size text
  have chars : seqs.map charOf = (seqs.map Token.char).map reading := by
    rw [List.map_map]
    rfl
  have whole := scan_eq_iff text [] seqs
  rw [List.append_nil] at whole
  rw [found, utf8Pending_awaits awaits, chars, reading_injective.list_map.eq_iff]
  constructor
  · rintro ⟨tokens, held⟩
    obtain ⟨joined, formed, _⟩ := whole.mp (Prod.ext tokens held)
    exact ⟨joined, formed⟩
  · rintro ⟨joined, formed⟩
    have same := whole.mpr ⟨joined, formed, .inl rfl⟩
    rw [same]
    exact ⟨rfl, rfl⟩

theorem decodes (ctx : Utf8Ctx) (size : ctx.buf.length = 5) : DecodesUtf8 ctx where
  chars text byte ucs mb := char_mem_decodeByte size text mb byte ucs
  errors text byte := error_mem_decodeByte size text byte
  texts text seqs := decode_texts size text seqs
  encodes value scalar := by
    obtain ⟨count, holds⟩ := utf8FromUcs_scalar size scalar
    obtain ⟨formed, point⟩ := wellFormed_encodeUtf8 scalar
    rw [holds.stored]
    refine ⟨count, ?_⟩
    have read := (decode_texts size (encodeUtf8 value) [encodeUtf8 value]).mpr
      ⟨List.append_nil _, by simpa using formed⟩
    rw [read.1, List.map_singleton, charOf, point]
  reencodes text byte ucs mb member := by
    obtain ⟨_, formed, rfl⟩ := (char_mem_decodeByte size text mb byte ucs).mp member
    obtain ⟨scalar, encoded⟩ := encodeUtf8_codePoint formed
    rw [(utf8FromUcs_scalar size scalar).2.stored, encoded]
  refuses ucs other := by rw [utf8FromUcs_other other]

def freshCtx : Utf8Ctx := { buf := [0, 0, 0, 0, 0], need := 0, got := 0, len := 0, ucs := -1 }

theorem decodes_fresh : freshCtx.buf.length = 5 ∧ DecodesUtf8 freshCtx :=
  ⟨rfl, decodes freshCtx rfl⟩

/-- The letter behind a broken sequence is not read when it is fed once. -/
theorem not_ready_at_every_end :
    ¬ ∀ text seq : Bytes, wellFormed seq = true → seq <:+ text →
      utf8IsReady (text.foldl (fun ctx byte => (utf8AddByte ctx byte).2) (utf8Init freshCtx)) =
          true ∧
        (text.foldl (fun ctx byte => (utf8AddByte ctx byte).2) (utf8Init freshCtx)).ucs =
          codePoint seq := by
  intro all
  have claimed := (all [0xC3, 0x41] [0x41] rfl ⟨[0xC3], rfl⟩).1
  revert claimed
  decide

end Pttbbs.Common.Multibyte
