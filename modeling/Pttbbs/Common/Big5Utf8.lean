/-
The bounded conversions between Big5 and UTF-8.

The source and the destination are two buffers or one.  The two mapping tables are
parameters.  A loop has no result when its fuel runs out.
-/

import Pttbbs.Common.Utf8Decode
import Pttbbs.Lib.Fitting

namespace Pttbbs.Common.Multibyte

open Pttbbs.Lib

/-- The two buffers of a conversion.  When they are shared, the source is the destination.  A
source is followed by NUL. -/
structure Buffers where
  shared : Bool
  source : Bytes
  dest : Bytes
deriving DecidableEq, Repr

namespace Buffers

def cells (buffers : Buffers) : Bytes := if buffers.shared then buffers.dest else buffers.source

def read (buffers : Buffers) (index : Nat) : UInt8 := buffers.cells.getD index 0

def write (buffers : Buffers) (index : Nat) (byte : UInt8) : Buffers :=
  { buffers with dest := buffers.dest.set index byte }

def writeAll (buffers : Buffers) (index : Nat) : Bytes → Buffers
  | [] => buffers
  | byte :: rest => (buffers.write index byte).writeAll (index + 1) rest

end Buffers

/-- `p < end`: the source ends after `srcLen` bytes, or only with its NUL. -/
def beforeEnd (srcLen : Option Nat) (p : Nat) : Prop :=
  match srcLen with
  | none => True
  | some count => p < count

instance (srcLen : Option Nat) (p : Nat) : Decidable (beforeEnd srcLen p) := by
  unfold beforeEnd
  split <;> infer_instance

section ToBig5

variable (u2bTable : Nat → UInt16)

def big5Code (ucs : Int) : UInt16 :=
  let b5 := if ucs ≥ 0 ∧ ucs < 0x10000 then u2bTable ucs.toNat else 0
  if b5 = 0 then questionMark.toUInt16 else b5

def utf8ToBig5Loop (srcLen : Option Nat) (maxLen : Nat) :
    Nat → Utf8Ctx → Buffers → Nat → Nat → Option (Utf8Ctx × Buffers × Nat)
  | 0, _, _, _, _ => none
  | fuel + 1, ctx, buffers, p, outIdx =>
      if beforeEnd srcLen p ∧ buffers.read p ≠ 0 ∧ outIdx < maxLen - 1 then
        let wasPending := utf8Pending ctx
        let (ready, ctx) := utf8AddByte ctx (buffers.read p)
        if ready then
          let b5 := big5Code u2bTable (utf8GetUcs ctx).1
          let ctx := (utf8GetUcs ctx).2
          if b5 > 0xFF then
            if outIdx + 2 ≥ maxLen then some (ctx, buffers, outIdx)
            else
              let buffers := buffers.write outIdx (b5 >>> 8).toUInt8
              let buffers := buffers.write (outIdx + 1) (b5 &&& 0xFF).toUInt8
              utf8ToBig5Loop srcLen maxLen fuel ctx buffers (p + 1) (outIdx + 2)
          else
            let buffers := buffers.write outIdx b5.toUInt8
            utf8ToBig5Loop srcLen maxLen fuel ctx buffers (p + 1) (outIdx + 1)
        else if utf8IsError ctx then
          -- the byte that broke a sequence is read again
          utf8ToBig5Loop srcLen maxLen fuel ctx (buffers.write outIdx questionMark)
            (if wasPending ≠ 0 then p + 1 - 1 else p + 1) (outIdx + 1)
        else utf8ToBig5Loop srcLen maxLen fuel ctx buffers (p + 1) outIdx
      else some (ctx, buffers, outIdx)

def utf8ToBig5End (maxLen : Nat) : Utf8Ctx × Buffers × Nat → Buffers
  | (ctx, buffers, outIdx) =>
      if utf8Pending ctx ≠ 0 ∧ outIdx < maxLen - 1 then
        (buffers.write outIdx questionMark).write (outIdx + 1) 0
      else buffers.write outIdx 0

/-- `utf8_to_big5_n`, with a context whose buffer has any bytes. -/
def utf8ToBig5N (ctx : Utf8Ctx) (srcLen : Option Nat) (maxLen : Nat) (buffers : Buffers) :
    Option Buffers :=
  if maxLen = 0 then some buffers
  else
    (utf8ToBig5Loop u2bTable srcLen maxLen (2 * buffers.cells.length + 1) (utf8Init ctx) buffers 0
      0).map (utf8ToBig5End maxLen)

end ToBig5

section ToUtf8

variable (b2uTable : UInt16 → UInt16)

def big5ToUtf8Loop (srcLen : Option Nat) (maxLen : Nat) :
    Nat → Utf8Ctx → Buffers → Nat → Nat → Option (Buffers × Nat)
  | 0, _, _, _, _ => none
  | fuel + 1, ctx, buffers, p, outIdx =>
      if beforeEnd srcLen p ∧ buffers.read p ≠ 0 ∧ outIdx < maxLen - 1 then
        let b5 := buffers.read p
        if b5 &&& 0x80 ≠ 0 ∧ (¬ beforeEnd srcLen (p + 1) ∨ buffers.read (p + 1) = 0) then
          some (buffers, outIdx)
        else
          let (p, ucs2) :=
            if b5 &&& 0x80 ≠ 0 then
              if buffers.read (p + 1) ≥ 0x40 then
                (p + 2, b2uTable (b5.toUInt16 <<< 8 ||| (buffers.read (p + 1)).toUInt16))
              else (p + 1, questionMark.toUInt16)
            else (p + 1, b5.toUInt16)
          let (utfLen, ctx) := utf8FromUcs ctx ucs2.toNat
          if outIdx + utfLen ≥ maxLen then some (buffers, outIdx)
          else
            let mb := utf8ToMb ctx
            let buffers := (buffers.writeAll outIdx mb).write (outIdx + mb.length) 0
            big5ToUtf8Loop srcLen maxLen fuel ctx buffers p (outIdx + mb.length)
      else some (buffers, outIdx)

/-- The copy that is made of a source that is the destination: `strlcpy` of what fits below
`max_len`, or `memcpy` of a shorter source, and NUL. -/
def big5Copy (srcLen : Option Nat) (maxLen : Nat) (source : Bytes) : Bytes :=
  match srcLen with
  | none => (source.takeWhile (· ≠ 0)).take (maxLen - 1) ++ [0]
  | some count =>
      if count ≥ maxLen then (source.takeWhile (· ≠ 0)).take (maxLen - 1) ++ [0]
      else source.take count ++ [0]

/-- `big5_to_utf8_n`, with a context that is not initialised. -/
def big5ToUtf8N (ctx : Utf8Ctx) (srcLen : Option Nat) (maxLen : Nat) (buffers : Buffers) :
    Option Buffers :=
  if maxLen = 0 then some buffers
  else
    let apart : Buffers :=
      if buffers.shared then
        { shared := false, source := big5Copy srcLen maxLen buffers.dest, dest := buffers.dest }
      else buffers
    (big5ToUtf8Loop b2uTable srcLen maxLen (apart.source.length + 1) ctx apart 0 0).map
      fun (out, outIdx) => { buffers with dest := (out.write outIdx 0).dest }

end ToUtf8

end Pttbbs.Common.Multibyte
