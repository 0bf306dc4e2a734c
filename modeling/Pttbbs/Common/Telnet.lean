/-
The TELNET decoder of a connection.

A connection hands its bytes to `telnet_process` in chunks of any size.  The
decoder keeps its state between them: whether the last byte was an IAC, which
part of a command is awaited, and what a subnegotiation has carried so far.
Bytes that belong to no command are handed on; replies and callbacks are listed
as events in the order they happen.
-/

import Mathlib.Data.List.Basic

namespace Pttbbs.Common.Telnet

/-! ### Commands and options -/

def cmdSE : UInt8 := 240
def cmdAYT : UInt8 := 246
def cmdSB : UInt8 := 250
def cmdWILL : UInt8 := 251
def cmdWONT : UInt8 := 252
def cmdDO : UInt8 := 253
def cmdDONT : UInt8 := 254
def cmdIAC : UInt8 := 255

def teloptBINARY : UInt8 := 0
def teloptECHO : UInt8 := 1
def teloptSGA : UInt8 := 3
def teloptTTYPE : UInt8 := 24
def teloptNAWS : UInt8 := 31

def telnetIACMaxLen : Nat := 32

inductive IacState where
  | none
  | command
  | waitOpt
  | waitSE
  | processOpt
  | error
deriving DecidableEq, Repr

structure TelnetCtx where
  iacState : IacState := .none
  iacQuote : Bool := false
  iacOptReq : UInt8 := 0
  iacBuf : List UInt8 := List.replicate telnetIACMaxLen 0
  iacBuflen : Nat := 0
deriving DecidableEq, Repr

/-- The callbacks that are set; `updateClientCode` needs `cc_arg` as well. -/
structure Callback where
  sendAyt : Bool := true
  termResize : Bool := true
  ttype : Bool := true
  updateClientCode : Bool := false

inductive Event where
  | write (bytes : List UInt8)
  | sendAyt
  | termResize (width height : Nat)
  | ttype (text : List UInt8)
  | updateClientCode (code : UInt8)
deriving DecidableEq, Repr

def telnetDefaultAytString : List UInt8 :=
  [73, 39, 109, 32, 115, 116, 105, 108, 108, 32, 97, 108, 105, 118, 101, 46, 13, 10]

/-! ### One byte -/

def telnetSendAyt (callback : Callback) : Event :=
  if callback.sendAyt then .sendAyt else .write telnetDefaultAytString

def clientCodes (callback : Callback) (ctx : TelnetCtx) (c : UInt8) : List Event :=
  if !callback.updateClientCode || ctx.iacState = .waitSE then []
  else if ctx.iacQuote then [.updateClientCode cmdIAC, .updateClientCode c]
  else [.updateClientCode c]

/-- At the top level an IAC starts a command; elsewhere it only quotes. -/
def unquote (ctx : TelnetCtx) (c : UInt8) : TelnetCtx :=
  if ctx.iacQuote then
    { ctx with
      iacQuote := false
      iacState :=
        if ctx.iacState = .none then .command
        else if ctx.iacState = .waitSE ∧ c = cmdSE then .processOpt
        else ctx.iacState }
  else ctx

def handleCommand (callback : Callback) (ctx : TelnetCtx) (c : UInt8) : TelnetCtx × List Event :=
  if c = cmdAYT then ({ ctx with iacState := .none }, [telnetSendAyt callback])
  else if c = cmdDONT ∨ c = cmdDO ∨ c = cmdWONT ∨ c = cmdWILL then
    ({ ctx with iacState := .waitOpt, iacOptReq := c }, [])
  else if c = cmdSB then ({ ctx with iacState := .waitSE, iacBuflen := 0 }, [])
  -- IAC IAC, the commands that are not processed, and what is no command.
  else ({ ctx with iacState := .none }, [])

def supported (option : UInt8) : Bool :=
  option = teloptTTYPE || option = teloptNAWS || option = teloptSGA || option = teloptECHO ||
    option = teloptBINARY

/-- The reply to a request: none to a supported option, a refusal to another. -/
def refusals (request option : UInt8) : List (List UInt8) :=
  if supported option then []
  else if request = cmdWILL ∨ request = cmdDO then
    [[cmdIAC, if request = cmdDO then cmdWONT else cmdDONT, option]]
  else []

def handleOption (ctx : TelnetCtx) (c : UInt8) : TelnetCtx × List Event :=
  ({ ctx with iacState := .none }, (refusals ctx.iacOptReq c).map .write)

/-- The last byte that fits into the buffer is not swallowed. -/
def handleSubnegotiation (ctx : TelnetCtx) (c : UInt8) : TelnetCtx × Bool :=
  let stored := { ctx with iacBuf := ctx.iacBuf.set ctx.iacBuflen c, iacBuflen := ctx.iacBuflen + 1 }
  if stored.iacBuflen = telnetIACMaxLen then ({ stored with iacState := .none }, false)
  else (stored, true)

/-- The buffer is not cleared: a short NAWS reads what was there before. -/
def handleProcessOpt (callback : Callback) (ctx : TelnetCtx) : TelnetCtx × List Event :=
  let at' (index : Nat) : UInt8 := ctx.iacBuf.getD index 0
  let rest : List Event :=
    if callback.updateClientCode then
      (ctx.iacBuf.take ctx.iacBuflen ++ [cmdIAC, cmdSE]).map .updateClientCode
    else []
  let events : List Event :=
    if at' 0 = teloptNAWS then
      let width := (at' 1).toNat * 256 + (at' 2).toNat
      let height := (at' 3).toNat * 256 + (at' 4).toNat
      let shape : UInt8 :=
        if width = 80 ∧ height = 24 then 1 else if width = 80 then 2
        else if height = 24 then 3 else 4
      (if callback.termResize then [.termResize width height] else []) ++
        (if callback.updateClientCode then
          [.updateClientCode (at' 0), .updateClientCode shape, .updateClientCode cmdIAC,
            .updateClientCode cmdSE]
        else [])
    else if at' 0 = teloptTTYPE then
      (if callback.ttype ∧ ctx.iacBuflen > 2 then
        [.ttype ((ctx.iacBuf.take ctx.iacBuflen).drop 2)] else []) ++ rest
    else rest
  ({ ctx with iacState := .none }, events)

/-- The state after a byte, the events, and whether the byte was swallowed. -/
def telnetHandler (callback : Callback) (ctx : TelnetCtx) (c : UInt8) :
    TelnetCtx × List Event × Bool :=
  if c = cmdIAC ∧ ctx.iacQuote = false then ({ ctx with iacQuote := true }, [], true)
  else
    let codes := clientCodes callback ctx c
    let ctx := unquote ctx c
    match ctx.iacState with
    | .none => (ctx, codes, false)
    | .command =>
        let (after, events) := handleCommand callback ctx c
        (after, codes ++ events, true)
    | .waitOpt =>
        let (after, events) := handleOption ctx c
        (after, codes ++ events, true)
    | .waitSE =>
        let (after, swallowed) := handleSubnegotiation ctx c
        (after, codes, swallowed)
    | .processOpt =>
        let (after, events) := handleProcessOpt callback ctx
        (after, codes ++ events, true)
    | .error => (ctx, codes, true)

/-! ### Chunks -/

structure Decoded where
  ctx : TelnetCtx
  events : List Event := []
  data : List UInt8 := []
deriving DecidableEq, Repr

def Decoded.feedByte (callback : Callback) (decoded : Decoded) (c : UInt8) : Decoded :=
  let (ctx, events, swallowed) := telnetHandler callback decoded.ctx c
  { ctx
    events := decoded.events ++ events
    data := if swallowed then decoded.data else decoded.data ++ [c] }

def Decoded.feed (callback : Callback) (decoded : Decoded) (bytes : List UInt8) : Decoded :=
  bytes.foldl (feedByte callback) decoded

/-- A chunk without an IAC, outside of any command, is handed on as it is.  Where
everything was swallowed the returned size is -1, and nothing is handed on. -/
def Decoded.telnetProcess (callback : Callback) (decoded : Decoded) (buf : List UInt8) : Decoded :=
  if decoded.ctx.iacState = .none ∧ decoded.ctx.iacQuote = false ∧ cmdIAC ∉ buf then
    { decoded with data := decoded.data ++ buf }
  else decoded.feed callback buf

def Decoded.processAll (callback : Callback) (decoded : Decoded) (chunks : List (List UInt8)) :
    Decoded :=
  chunks.foldl (telnetProcess callback) decoded

def telnetCtxInit : Decoded := { ctx := {} }

end Pttbbs.Common.Telnet
