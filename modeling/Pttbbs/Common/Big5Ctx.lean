/-
The incremental Big5 decoder.
-/

import Pttbbs.Common.Utf8Ctx

namespace Pttbbs.Common.Multibyte

open Pttbbs.Lib

/-- `big5_ctx`.  The buffer has three bytes. -/
structure Big5Ctx where
  buf : Bytes
  need : Nat
  got : Nat
  len : Nat
  ch : Int
deriving DecidableEq, Repr

def big5Init (ctx : Big5Ctx) : Big5Ctx :=
  { buf := ctx.buf.set 0 0, need := 0, got := 0, len := 0, ch := -1 }

def big5Error (ctx : Big5Ctx) : Big5Ctx :=
  { buf := (ctx.buf.set 0 questionMark).set 1 0
    need := 0
    got := 0
    len := 1
    ch := questionMark.toNat }

def big5IsError (ctx : Big5Ctx) : Bool := ctx.need = 0 ∧ ctx.len > 0

def big5Pending (ctx : Big5Ctx) : Nat := if ctx.need > ctx.got then ctx.need - ctx.got else 0

def big5IsReady (ctx : Big5Ctx) : Bool := ctx.need > 0 ∧ ctx.got = ctx.need

def big5GetChar (ctx : Big5Ctx) : Int × Big5Ctx :=
  if big5IsReady ctx then (ctx.ch, { ctx with need := 0, got := 0, len := 0, ch := -1 })
  else (-1, ctx)

def big5AddByte (ctx : Big5Ctx) (byte : UInt8) : Bool × Big5Ctx :=
  let ctx := if big5IsReady ctx then big5Init ctx else ctx
  if ctx.need > 0 then
    if byte < 0x40 ∨ byte = 0xFF then (false, big5Error ctx)
    else
      let first := ctx.buf.getD 0 0
      (true,
        { ctx with
          buf := (ctx.buf.set 1 byte).set 2 0
          got := 2
          len := 2
          ch := ((first.toNat <<< 8 ||| byte.toNat : Nat) : Int) })
  else if byte < 0x80 then
    (true,
      { buf := (ctx.buf.set 0 byte).set 1 0, need := 1, got := 1, len := 1, ch := byte.toNat })
  else if byte = 0x80 ∨ byte = 0xFF then (false, big5Error ctx)
  else
    (false,
      { buf := (ctx.buf.set 0 byte).set 1 0, need := 2, got := 1, len := 0, ch := -1 })

def big5FromChar (ctx : Big5Ctx) (ch : Int) : Nat × Big5Ctx :=
  if ch < 0 ∨ ch > 0xFFFF then (0, big5Init ctx)
  else
    let value := ch.toNat
    if ch ≤ 0xFF then
      (1, { buf := (ctx.buf.set 0 (UInt8.ofNat value)).set 1 0
            need := 1, got := 1, len := 1, ch := ch })
    else
      (2, { buf := ((ctx.buf.set 0 (UInt8.ofNat ((value >>> 8) &&& 0xFF))).set 1
              (UInt8.ofNat (value &&& 0xFF))).set 2 0
            need := 2, got := 2, len := 2, ch := ch })

def big5ToMb (ctx : Big5Ctx) : Bytes := ctx.buf.take ctx.len

end Pttbbs.Common.Multibyte
