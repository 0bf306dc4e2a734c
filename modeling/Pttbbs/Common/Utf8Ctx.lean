/-
The incremental UTF-8 decoder.

A context takes a byte at a time.  After a byte it is ready with a character, pending with
some bytes of one, in error, or empty.
-/

import Pttbbs.Lib.Utf8Scan
import Mathlib.Data.Int.Bitwise

namespace Pttbbs.Common.Multibyte

open Pttbbs.Lib

/-- `utf8_ctx`.  The buffer has five bytes. -/
structure Utf8Ctx where
  buf : Bytes
  need : Nat
  got : Nat
  len : Nat
  ucs : Int
deriving DecidableEq, Repr

def questionMark : UInt8 := 63

def utf8Init (ctx : Utf8Ctx) : Utf8Ctx :=
  { buf := ctx.buf.set 0 0, need := 0, got := 0, len := 0, ucs := -1 }

def utf8Error (ctx : Utf8Ctx) : Utf8Ctx :=
  { buf := (ctx.buf.set 0 questionMark).set 1 0
    need := 0
    got := 0
    len := 1
    ucs := questionMark.toNat }

def utf8IsError (ctx : Utf8Ctx) : Bool := ctx.need = 0 ∧ ctx.len > 0

def utf8Pending (ctx : Utf8Ctx) : Nat := if ctx.need > ctx.got then ctx.need - ctx.got else 0

def utf8IsReady (ctx : Utf8Ctx) : Bool := ctx.need > 0 ∧ ctx.got = ctx.need

def utf8GetUcs (ctx : Utf8Ctx) : Int × Utf8Ctx :=
  if utf8IsReady ctx then (ctx.ucs, { ctx with need := 0, got := 0, len := 0, ucs := -1 })
  else (-1, ctx)

def outOfRange (need : Nat) (ucs : Int) : Bool :=
  (need = 2 ∧ ucs < 0x80) ∨
    (need = 3 ∧ (ucs < 0x800 ∨ (ucs ≥ 0xD800 ∧ ucs ≤ 0xDFFF))) ∨
    (need = 4 ∧ (ucs < 0x10000 ∨ ucs > 0x10FFFF))

def addTail (ctx : Utf8Ctx) (byte : UInt8) : Utf8Ctx :=
  { ctx with
    buf := ctx.buf.set ctx.got byte
    got := ctx.got + 1
    ucs := Int.lor (ctx.ucs <<< 6) (byte &&& 0x3F).toNat }

def utf8AddByte (ctx : Utf8Ctx) (byte : UInt8) : Bool × Utf8Ctx :=
  let ctx := if utf8IsReady ctx then utf8Init ctx else ctx
  if ctx.need > 0 then
    if byte &&& 0xC0 ≠ 0x80 ∨ ctx.need < 2 ∨ ctx.got = 0 ∨ ctx.got ≥ ctx.need then
      (false, utf8Error ctx)
    else
      let ctx := addTail ctx byte
      if ctx.got = ctx.need then
        if outOfRange ctx.need ctx.ucs then (false, utf8Error ctx)
        else (true, { ctx with buf := ctx.buf.set ctx.got 0, len := ctx.got })
      else (false, ctx)
  else if byte < 0x80 then
    (true,
      { buf := (ctx.buf.set 0 byte).set 1 0, need := 1, got := 1, len := 1, ucs := byte.toNat })
  else if byte < 0xC2 ∨ byte > 0xF4 then (false, utf8Error ctx)
  else
    let ctx := { ctx with buf := ctx.buf.set 0 byte, got := 1, len := 0 }
    if byte &&& 0xE0 = 0xC0 then (false, { ctx with need := 2, ucs := (byte &&& 0x1F).toNat })
    else if byte &&& 0xF0 = 0xE0 then
      (false, { ctx with need := 3, ucs := (byte &&& 0x0F).toNat })
    else (false, { ctx with need := 4, ucs := (byte &&& 0x07).toNat })

def utf8FromUcs (ctx : Utf8Ctx) (ucs : Int) : Nat × Utf8Ctx :=
  if ucs < 0 ∨ ucs > 0x10FFFF ∨ (ucs ≥ 0xD800 ∧ ucs ≤ 0xDFFF) then (0, utf8Init ctx)
  else
    let value := ucs.toNat
    if ucs < 0x80 then
      (1, { buf := (ctx.buf.set 0 (UInt8.ofNat value)).set 1 0
            need := 1, got := 1, len := 1, ucs := ucs })
    else if ucs < 0x800 then
      (2, { buf := ((ctx.buf.set 0 (UInt8.ofNat (0xC0 ||| (value >>> 6)))).set 1
              (UInt8.ofNat (0x80 ||| (value &&& 0x3F)))).set 2 0
            need := 2, got := 2, len := 2, ucs := ucs })
    else if ucs < 0x10000 then
      (3, { buf := (((ctx.buf.set 0 (UInt8.ofNat (0xE0 ||| (value >>> 12)))).set 1
              (UInt8.ofNat (0x80 ||| ((value >>> 6) &&& 0x3F)))).set 2
              (UInt8.ofNat (0x80 ||| (value &&& 0x3F)))).set 3 0
            need := 3, got := 3, len := 3, ucs := ucs })
    else
      (4, { buf := ((((ctx.buf.set 0 (UInt8.ofNat (0xF0 ||| (value >>> 18)))).set 1
              (UInt8.ofNat (0x80 ||| ((value >>> 12) &&& 0x3F)))).set 2
              (UInt8.ofNat (0x80 ||| ((value >>> 6) &&& 0x3F)))).set 3
              (UInt8.ofNat (0x80 ||| (value &&& 0x3F)))).set 4 0
            need := 4, got := 4, len := 4, ucs := ucs })

def utf8ToMb (ctx : Utf8Ctx) : Bytes := ctx.buf.take ctx.len

/-! ### Masks -/

theorem forall_byte (property : UInt8 → Prop) (all : ∀ value : Fin 256, property (.ofNat value))
    (byte : UInt8) : property byte := by
  have held := all ⟨byte.toNat, byte.toNat_lt⟩
  rw [UInt8.ofNat_toNat] at held
  exact held

theorem mask_tail (byte : UInt8) : byte &&& 0xC0 = 0x80 ↔ isTail byte = true :=
  forall_byte (fun byte => byte &&& 0xC0 = 0x80 ↔ isTail byte = true) (by decide +kernel) byte

def MasksRead (byte : UInt8) : Prop :=
  inRange 0xC2 0xF4 byte = true →
    (byte &&& 0xE0 = 0xC0 ∧ sequenceLength byte = 2 ∧ (byte &&& 0x1F).toNat = payload byte) ∨
      (byte &&& 0xE0 ≠ 0xC0 ∧ byte &&& 0xF0 = 0xE0 ∧ sequenceLength byte = 3 ∧
        (byte &&& 0x0F).toNat = payload byte) ∨
      (byte &&& 0xE0 ≠ 0xC0 ∧ byte &&& 0xF0 ≠ 0xE0 ∧ sequenceLength byte = 4 ∧
        (byte &&& 0x07).toNat = payload byte)

instance (byte : UInt8) : Decidable (MasksRead byte) := inferInstanceAs (Decidable (_ → _))

theorem mask_lead (byte : UInt8) : MasksRead byte :=
  forall_byte MasksRead (by decide +kernel) byte

theorem lor_shift (value : Nat) (byte : UInt8) :
    Int.lor ((value : Int) <<< 6) (byte &&& 0x3F).toNat =
      ((value * 64 + byte.toNat % 64 : Nat) : Int) := by
  have low : (byte &&& 0x3F).toNat = byte.toNat % 64 := by
    rw [UInt8.toNat_and]
    exact Nat.and_two_pow_sub_one_eq_mod byte.toNat 6
  change ((value <<< 6 ||| (byte &&& 0x3F).toNat : Nat) : Int) = _
  rw [low, ← Nat.shiftLeft_add_eq_or_of_lt (by omega), Nat.shiftLeft_eq]

/-! ### What a context has taken -/

inductive Awaits (ctx : Utf8Ctx) : Bytes → Prop where
  | idle (size : ctx.buf.length = 5) (none : ctx.need = 0) : Awaits ctx []
  | inside {bytes : Bytes} (size : ctx.buf.length = 5) (begun : isOpen bytes = true)
      (lead : ctx.need = sequenceLength (bytes.headD 0)) (count : ctx.got = bytes.length)
      (empty : ctx.len = 0) (value : ctx.ucs = codePoint bytes)
      (stored : ctx.buf.take bytes.length = bytes) : Awaits ctx bytes

structure Holds (ctx : Utf8Ctx) (bytes : Bytes) : Prop where
  size : ctx.buf.length = 5
  ready : utf8IsReady ctx = true
  value : ctx.ucs = codePoint bytes
  stored : utf8ToMb ctx = bytes

theorem Awaits.size {ctx : Utf8Ctx} {bytes : Bytes} (awaits : Awaits ctx bytes) :
    ctx.buf.length = 5 := by
  cases awaits with
  | idle size => exact size
  | inside size => exact size

theorem awaits_utf8Error {ctx : Utf8Ctx} (size : ctx.buf.length = 5) :
    Awaits (utf8Error ctx) [] ∧ utf8IsError (utf8Error ctx) = true := by
  refine ⟨.idle ?_ rfl, rfl⟩
  rw [utf8Error, List.length_set, List.length_set, size]

inductive Takes (held : Bytes) (byte : UInt8) : Bool × Utf8Ctx → Prop where
  | more {ctx : Utf8Ctx} (opens : isOpen (held ++ [byte]) = true)
      (quiet : utf8IsError ctx = false) (awaits : Awaits ctx (held ++ [byte])) :
      Takes held byte (false, ctx)
  | last {ctx : Utf8Ctx} (formed : wellFormed (held ++ [byte]) = true)
      (holds : Holds ctx (held ++ [byte])) : Takes held byte (true, ctx)
  | wrong {ctx : Utf8Ctx} (closed : isOpen (held ++ [byte]) = false)
      (illFormed : wellFormed (held ++ [byte]) = false) (reports : utf8IsError ctx = true)
      (awaits : Awaits ctx []) : Takes held byte (false, ctx)

theorem five_bytes {buf : Bytes} (size : buf.length = 5) :
    ∃ first second third fourth fifth, buf = [first, second, third, fourth, fifth] := by
  rcases buf with _ | ⟨first, _ | ⟨second, _ | ⟨third, _ | ⟨fourth, _ | ⟨fifth, _ | _⟩⟩⟩⟩⟩
  case cons.cons.cons.cons.cons.nil => exact ⟨first, second, third, fourth, fifth, rfl⟩
  all_goals simp at size

theorem utf8AddByte_idle {ctx : Utf8Ctx} (byte : UInt8) (size : ctx.buf.length = 5)
    (none : ctx.need = 0) : Takes [] byte (utf8AddByte ctx byte) := by
  have notReady : utf8IsReady ctx = false := by
    rw [utf8IsReady, none]
    rfl
  rw [utf8AddByte, notReady]
  simp only [Bool.false_eq_true, if_false, none, gt_iff_lt, Nat.lt_irrefl, UInt8.lt_iff_toNat_lt]
  by_cases ascii : byte.toNat < (0x80 : UInt8).toNat
  · rw [if_pos ascii]
    have small : byte.toNat < 0x80 := ascii
    refine .last (by rw [List.nil_append, wellFormed, inRange_iff]; omega) ⟨?_, rfl, ?_, ?_⟩
    · rw [List.length_set, List.length_set, size]
    · exact congrArg Int.ofNat (if_pos small).symm
    · obtain ⟨_, _, _, _, _, held⟩ := five_bytes size
      rw [held]
      rfl
  · rw [if_neg ascii]
    have large : ¬ byte.toNat < 0x80 := ascii
    by_cases outside : byte.toNat < (0xC2 : UInt8).toNat ∨ (0xF4 : UInt8).toNat < byte.toNat
    · rw [if_pos outside]
      have range : byte.toNat < 0xC2 ∨ 0xF4 < byte.toNat := outside
      obtain ⟨awaits, reports⟩ := awaits_utf8Error size
      refine .wrong ?_ ?_ reports awaits
      · rw [Bool.eq_false_iff, List.nil_append, ne_eq, isOpen_cons]
        omega
      · rw [Bool.eq_false_iff, List.nil_append, ne_eq, wellFormed, inRange_iff]
        omega
    · rw [if_neg outside]
      have range : ¬ (byte.toNat < 0xC2 ∨ 0xF4 < byte.toNat) := outside
      have opens (length : 1 < sequenceLength byte) : isOpen [byte] = true :=
        (isOpen_cons _ _).mpr ⟨by omega, by simp, length⟩
      have kept : (ctx.buf.set 0 byte).take 1 = [byte] := by
        obtain ⟨_, _, _, _, _, held⟩ := five_bytes size
        rw [held]
        rfl
      have stays : (ctx.buf.set 0 byte).length = 5 := by rw [List.length_set, size]
      rcases mask_lead byte ((inRange_iff _ _ _).mpr (by omega)) with
        ⟨mask, length, bits⟩ | ⟨other, mask, length, bits⟩ | ⟨other, another, length, bits⟩
      · rw [if_pos mask]
        have begun := opens (by omega)
        exact .more begun rfl (.inside stays begun length.symm rfl rfl (by rw [bits]; rfl) kept)
      · rw [if_neg other, if_pos mask]
        have begun := opens (by omega)
        exact .more begun rfl (.inside stays begun length.symm rfl rfl (by rw [bits]; rfl) kept)
      · rw [if_neg other, if_neg another]
        have begun := opens (by omega)
        exact .more begun rfl (.inside stays begun length.symm rfl rfl (by rw [bits]; rfl) kept)

theorem take_set_concat {α : Type} {buffer front : List α} (value : α)
    (stored : buffer.take front.length = front) (room : front.length < buffer.length) :
    (buffer.set front.length value).take (front.length + 1) = front ++ [value] := by
  rw [List.take_succ_eq_append_getElem (by rw [List.length_set]; exact room),
    List.take_set_of_le (Nat.le_refl _), stored, List.getElem_set_self]

theorem outOfRange_iff (need value : Nat) :
    outOfRange need value = true ↔
      (need = 2 ∧ value < 0x80 ∨ need = 3 ∧ (value < 0x800 ∨ 0xD800 ≤ value ∧ value ≤ 0xDFFF) ∨
        need = 4 ∧ (value < 0x10000 ∨ 0x10FFFF < value)) := by
  rw [outOfRange, decide_eq_true_eq]
  norm_cast

theorem utf8AddByte_inside {ctx : Utf8Ctx} {lead : UInt8} {rest : Bytes} (byte : UInt8)
    (size : ctx.buf.length = 5) (begun : isOpen (lead :: rest) = true)
    (need : ctx.need = sequenceLength lead) (count : ctx.got = rest.length + 1)
    (empty : ctx.len = 0) (value : ctx.ucs = codePoint (lead :: rest))
    (stored : ctx.buf.take (rest.length + 1) = lead :: rest) :
    Takes (lead :: rest) byte (utf8AddByte ctx byte) := by
  obtain ⟨range, tails, short⟩ := (isOpen_cons _ _).mp begun
  have bound := sequenceLength_le lead
  have notReady : utf8IsReady ctx = false := by
    rw [utf8IsReady, decide_eq_false_iff_not]
    omega
  rw [utf8AddByte, notReady]
  simp only [Bool.false_eq_true, if_false]
  rw [if_pos (by omega)]
  by_cases tail : isTail byte = true
  · have mask := (mask_tail byte).mpr tail
    have goesOn : ¬ (byte &&& 0xC0 ≠ 0x80 ∨ ctx.need < 2 ∨ ctx.got = 0 ∨ ctx.got ≥ ctx.need) := by
      simp only [mask, ne_eq, not_true_eq_false, false_or]
      omega
    rw [if_neg goesOn]
    have addedValue : (addTail ctx byte).ucs = codePoint (lead :: rest ++ [byte]) := by
      rw [codePoint_concat, ← lor_shift, addTail, value]
    have addedStored :
        (addTail ctx byte).buf.take (rest.length + 2) = lead :: rest ++ [byte] := by
      rw [addTail, count]
      have kept : ctx.buf.take (lead :: rest).length = lead :: rest := stored
      exact take_set_concat byte kept (by rw [List.length_cons, size]; omega)
    have addedSize : (addTail ctx byte).buf.length = 5 := by
      rw [addTail, List.length_set, size]
    have addedGot : (addTail ctx byte).got = rest.length + 2 := by
      rw [addTail, count]
    have addedNeed : (addTail ctx byte).need = sequenceLength lead := need
    by_cases complete : rest.length + 2 = sequenceLength lead
    · rw [addedGot, addedNeed, if_pos complete]
      have judged := wellFormed_complete begun tail complete
      rw [← outOfRange_iff, ← addedValue] at judged
      by_cases outside : outOfRange (sequenceLength lead) (addTail ctx byte).ucs = true
      · rw [if_pos outside]
        obtain ⟨awaits, reports⟩ := awaits_utf8Error addedSize
        refine .wrong ?_ ?_ reports awaits
        · rw [Bool.eq_false_iff, ne_eq, List.cons_append, isOpen_cons, List.length_append,
            List.length_singleton]
          omega
        · rw [Bool.eq_false_iff, ne_eq, judged]
          exact not_not_intro outside
      · rw [if_neg outside]
        refine .last (judged.mpr outside) ⟨?_, ?_, addedValue, ?_⟩
        · rw [List.length_set, addedSize]
        · rw [utf8IsReady, decide_eq_true_eq]
          dsimp only
          omega
        · rw [utf8ToMb, List.take_set_of_le (Nat.le_refl _), addedStored]
    · rw [addedGot, addedNeed, if_neg complete]
      have opens : isOpen (lead :: rest ++ [byte]) = true := by
        rw [List.cons_append, isOpen_cons, List.length_append, List.length_singleton]
        refine ⟨range, fun other member => ?_, by omega⟩
        rcases List.mem_append.mp member with old | new
        · exact tails other old
        · rw [List.mem_singleton.mp new]
          exact tail
      refine .more opens ?_ (.inside addedSize opens addedNeed ?_ empty addedValue ?_)
      · rw [utf8IsError, decide_eq_false_iff_not]
        change ¬ (ctx.need = 0 ∧ _)
        omega
      · rw [addedGot]
        simp
      · rw [List.length_append, List.length_cons, List.length_singleton]
        exact addedStored
  · have mask : byte &&& 0xC0 ≠ 0x80 := fun mask => tail ((mask_tail byte).mp mask)
    rw [if_pos (.inl mask)]
    obtain ⟨awaits, reports⟩ := awaits_utf8Error size
    refine .wrong ?_ ?_ reports awaits
    · rw [Bool.eq_false_iff]
      exact fun opens => tail (isOpen_concat (List.cons_ne_nil _ _) opens).2
    · rw [Bool.eq_false_iff]
      exact fun formed => tail (wellFormed_concat (List.cons_ne_nil _ _) formed).2

theorem utf8AddByte_takes {ctx : Utf8Ctx} {held : Bytes} (awaits : Awaits ctx held)
    (byte : UInt8) : Takes held byte (utf8AddByte ctx byte) := by
  cases awaits with
  | idle size none => exact utf8AddByte_idle byte size none
  | inside size begun lead count empty value stored =>
      cases held with
      | nil => cases begun
      | cons head rest => exact utf8AddByte_inside byte size begun lead count empty value stored

theorem awaits_utf8Init {ctx : Utf8Ctx} (size : ctx.buf.length = 5) : Awaits (utf8Init ctx) [] :=
  .idle (by rw [utf8Init, List.length_set, size]) rfl

theorem utf8GetUcs_holds {ctx : Utf8Ctx} {bytes : Bytes} (holds : Holds ctx bytes) :
    (utf8GetUcs ctx).1 = codePoint bytes ∧ Awaits (utf8GetUcs ctx).2 [] := by
  rw [utf8GetUcs, if_pos holds.ready]
  exact ⟨holds.value, .idle holds.size rfl⟩

theorem utf8Pending_awaits {ctx : Utf8Ctx} {held : Bytes} (awaits : Awaits ctx held) :
    utf8Pending ctx = 0 ↔ held = [] := by
  cases awaits with
  | idle size none =>
      rw [utf8Pending, none]
      simp
  | inside size begun lead count empty value stored =>
      cases held with
      | nil => cases begun
      | cons head rest =>
          have short := ((isOpen_cons _ _).mp begun).2.2
          simp only [List.headD_cons, List.length_cons] at lead count
          rw [utf8Pending, if_pos (by omega)]
          simp only [reduceCtorEq, iff_false]
          omega

/-! ### The encoder -/

theorem or_lead_two : ∀ bits : Fin 32, 0xC0 ||| bits.val = 0xC0 + bits.val := by
  decide

theorem or_lead_three : ∀ bits : Fin 16, 0xE0 ||| bits.val = 0xE0 + bits.val := by
  decide

theorem or_lead_four : ∀ bits : Fin 8, 0xF0 ||| bits.val = 0xF0 + bits.val := by
  decide

theorem or_tail (value : Nat) : 0x80 ||| (value &&& 0x3F) = 0x80 + value % 64 := by
  have all : ∀ bits : Fin 64, 0x80 ||| bits.val = 0x80 + bits.val := by decide
  have low : value &&& 0x3F = value % 64 := Nat.and_two_pow_sub_one_eq_mod value 6
  rw [low]
  exact all ⟨value % 64, Nat.mod_lt _ (by omega)⟩

theorem utf8FromUcs_other {ctx : Utf8Ctx} {ucs : Int}
    (other : ¬ (0 ≤ ucs ∧ IsScalar ucs.toNat)) : utf8FromUcs ctx ucs = (0, utf8Init ctx) := by
  rw [utf8FromUcs, if_pos]
  unfold IsScalar at other
  omega

theorem utf8FromUcs_scalar {ctx : Utf8Ctx} {value : Nat} (size : ctx.buf.length = 5)
    (scalar : IsScalar value) :
    (utf8FromUcs ctx value).1 = (encodeUtf8 value).length ∧
      Holds (utf8FromUcs ctx value).2 (encodeUtf8 value) := by
  have point := (wellFormed_encodeUtf8 scalar).2
  unfold IsScalar at scalar
  rw [utf8FromUcs, if_neg (by omega)]
  simp only [Int.toNat_natCast]
  by_cases one : value < 0x80
  · have encoded : encodeUtf8 value = [UInt8.ofNat value] := if_pos one
    rw [if_pos (by omega), encoded]
    rw [encoded] at point
    refine ⟨rfl, ?_, rfl, congrArg Int.ofNat point.symm, ?_⟩
    · rw [List.length_set, List.length_set, size]
    · obtain ⟨_, _, _, _, _, held⟩ := five_bytes size
      rw [held]
      rfl
  · rw [if_neg (by omega)]
    by_cases two : value < 0x800
    · have lead := or_lead_two ⟨value / 64, by omega⟩
      have encoded : encodeUtf8 value = [UInt8.ofNat (0xC0 ||| (value >>> 6)),
          UInt8.ofNat (0x80 ||| (value &&& 0x3F))] := by
        rw [encodeUtf8, if_neg one, if_pos two, or_tail, Nat.shiftRight_eq_div_pow]
        rw [show value / 2 ^ 6 = value / 64 from rfl, lead]
      rw [if_pos (by omega), encoded]
      rw [encoded] at point
      refine ⟨rfl, ?_, rfl, congrArg Int.ofNat point.symm, ?_⟩
      · simp only [List.length_set, size]
      · obtain ⟨_, _, _, _, _, held⟩ := five_bytes size
        rw [held]
        rfl
    · rw [if_neg (by omega)]
      by_cases three : value < 0x10000
      · have lead := or_lead_three ⟨value / 4096, by omega⟩
        have encoded : encodeUtf8 value = [UInt8.ofNat (0xE0 ||| (value >>> 12)),
            UInt8.ofNat (0x80 ||| ((value >>> 6) &&& 0x3F)),
            UInt8.ofNat (0x80 ||| (value &&& 0x3F))] := by
          rw [encodeUtf8, if_neg one, if_neg two, if_pos three, or_tail, or_tail,
            Nat.shiftRight_eq_div_pow, Nat.shiftRight_eq_div_pow]
          rw [show value / 2 ^ 12 = value / 4096 from rfl, lead]
        rw [if_pos (by omega), encoded]
        rw [encoded] at point
        refine ⟨rfl, ?_, rfl, congrArg Int.ofNat point.symm, ?_⟩
        · simp only [List.length_set, size]
        · obtain ⟨_, _, _, _, _, held⟩ := five_bytes size
          rw [held]
          rfl
      · have lead := or_lead_four ⟨value / 262144, by omega⟩
        have encoded : encodeUtf8 value = [UInt8.ofNat (0xF0 ||| (value >>> 18)),
            UInt8.ofNat (0x80 ||| ((value >>> 12) &&& 0x3F)),
            UInt8.ofNat (0x80 ||| ((value >>> 6) &&& 0x3F)),
            UInt8.ofNat (0x80 ||| (value &&& 0x3F))] := by
          rw [encodeUtf8, if_neg one, if_neg two, if_neg three, or_tail, or_tail, or_tail,
            Nat.shiftRight_eq_div_pow, Nat.shiftRight_eq_div_pow, Nat.shiftRight_eq_div_pow]
          rw [show value / 2 ^ 18 = value / 262144 from rfl, lead]
        rw [if_neg (by omega), encoded]
        rw [encoded] at point
        refine ⟨rfl, ?_, rfl, congrArg Int.ofNat point.symm, ?_⟩
        · simp only [List.length_set, size]
        · obtain ⟨_, _, _, _, _, held⟩ := five_bytes size
          rw [held]
          rfl

end Pttbbs.Common.Multibyte
