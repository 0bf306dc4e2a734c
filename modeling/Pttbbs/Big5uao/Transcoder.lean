/-
The transcoder between Big5-UAO and UTF-8.

Texts are converted in one go, or by transformers that are called with chunks of them.  Both are
written on their own.
-/

import Pttbbs.Lib.Transducer
import Pttbbs.Lib.Utf8Grammar
import Pttbbs.PostSvc.Encoded

namespace Pttbbs.Big5uao

open Pttbbs.Lib
open Pttbbs.PostSvc (encodeRune encodeBig5)

/-! ### Runes -/

def questionMark : UInt8 := 63

/-- `utf8.RuneLen`, none for -1. -/
def runeLen (r : Nat) : Option Nat :=
  if r < 0x80 then some 1
  else if r < 0x800 then some 2
  else if 0xD800 ≤ r ∧ r ≤ 0xDFFF then none
  else if r < 0x10000 then some 3
  else if r ≤ 0x10FFFF then some 4
  else none

def encodedRune (r : Nat) : Bytes := if IsScalar r then encodeUtf8 r else encodeUtf8 runeError

def firstSize (first : UInt8) : Nat :=
  if first < 0xC2 ∨ 0xF5 ≤ first then 1 else if first < 0xE0 then 2 else if first < 0xF0 then 3 else 4

def accepts (first second : UInt8) : Bool :=
  inRange (if first = 0xE0 then 0xA0 else if first = 0xF0 then 0x90 else 0x80)
    (if first = 0xED then 0x9F else if first = 0xF4 then 0x8F else 0xBF) second

def fullRune : Bytes → Bool
  | [] => false
  | first :: rest =>
      if firstSize first ≤ rest.length + 1 then true
      else
        match rest with
        | [] => false
        | second :: others =>
            if accepts first second = false then true
            else
              match others with
              | [] => false
              | third :: _ => inRange 0x80 0xBF third = false

/-! ### The transformers -/

def codeOf (c c2 : UInt8) : Nat := c.toNat * 256 + c2.toNat

def uaoDecoderTransform (b2uTable : Nat → UInt16) (atEOF : Bool) :
    Nat → Bytes → Transformed UInt8
  | _, [] => .stop none
  | room, c :: rest =>
      if c < 0x80 then
        if room = 0 then .stop (some .dst)
        else .after [c] 1 (uaoDecoderTransform b2uTable atEOF (room - 1) rest)
      else
        match rest with
        | [] =>
            if atEOF = false then .stop (some .src)
            else if room = 0 then .stop (some .dst)
            else .after [questionMark] 1 (.stop none)
        | c2 :: others =>
            if c2 ≥ 0x40 then
              let u := (b2uTable (codeOf c c2)).toNat
              let r := if u = 0 then questionMark.toNat else u
              let rlen := (runeLen r).getD 1
              let r := if runeLen r = none then questionMark.toNat else r
              if room < rlen then .stop (some .dst)
              else .after (encodedRune r) 2 (uaoDecoderTransform b2uTable atEOF (room - rlen) others)
            else
              if room < 1 then .stop (some .dst)
              else .after [questionMark] 1
                (uaoDecoderTransform b2uTable atEOF (room - 1) (c2 :: others))

def uaoEncoderTransform (u2bTable : Nat → UInt16) (atEOF : Bool) (room : Nat) :
    Bytes → Transformed UInt8
  | [] => .stop none
  | c :: rest =>
      if c < 0x80 then
        if room = 0 then .stop (some .dst)
        else .after [c] 1 (uaoEncoderTransform u2bTable atEOF (room - 1) rest)
      else
        let (r, size) := decodeRune (c :: rest)
        if r = runeError ∧ size = 1 then
          if atEOF = false ∧ fullRune (c :: rest) = false then .stop (some .src)
          else if room = 0 then .stop (some .dst)
          else .after [questionMark] 1 (uaoEncoderTransform u2bTable atEOF (room - 1) rest)
        else
          let b5 := if r < 0x10000 then (u2bTable r).toNat else 0
          let b5 := if b5 = 0 then questionMark.toNat else b5
          if b5 > 0xFF then
            if room < 2 then .stop (some .dst)
            else .after [.ofNat (b5 / 256), .ofNat (b5 % 256)] size
              (uaoEncoderTransform u2bTable atEOF (room - 2) (rest.drop (size - 1)))
          else if room = 0 then .stop (some .dst)
          else .after [.ofNat b5] size
            (uaoEncoderTransform u2bTable atEOF (room - 1) (rest.drop (size - 1)))
termination_by source => source.length
decreasing_by all_goals simp only [List.length_drop, List.length_cons]; omega

/-! ### The fast paths -/

def decode (b2uTable : Nat → UInt16) : Bytes → Bytes
  | [] => []
  | c :: rest =>
      if c < 0x80 then c :: decode b2uTable rest
      else
        match rest with
        | [] => []
        | c2 :: others =>
            if c2 = 0 then []
            else if c2 ≥ 0x40 then
              encodedRune (b2uTable (codeOf c c2)).toNat ++ decode b2uTable others
            else questionMark :: decode b2uTable (c2 :: others)

end Pttbbs.Big5uao
