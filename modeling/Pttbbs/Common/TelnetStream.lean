/-
How a client's stream is decoded, whatever its chunks.

A stream is a list of data bytes and commands followed by the beginning of a
command that is not finished yet.  The state of the decoder after a stream is
what that beginning says, so a chunk may end anywhere.
-/

import Pttbbs.Common.Telnet
import Mathlib.Data.List.Induction

namespace Pttbbs.Common.Telnet

/-! ### Streams -/

structure Carried where
  quoted : Bool
  byte : UInt8
  plain : quoted = false → byte ≠ cmdIAC

def Carried.encode (carried : Carried) : List UInt8 :=
  if carried.quoted then [cmdIAC, carried.byte] else [carried.byte]

def isRequest (code : UInt8) : Prop :=
  code = cmdDONT ∨ code = cmdDO ∨ code = cmdWONT ∨ code = cmdWILL

instance (code : UInt8) : Decidable (isRequest code) := inferInstanceAs (Decidable (_ ∨ _))

structure Content where
  carried : List Carried
  inside : ∀ byte ∈ carried, byte.quoted = true → byte.byte ≠ cmdSE

def Content.encode (content : Content) : List UInt8 := content.carried.flatMap Carried.encode

inductive Item where
  | data (byte : UInt8) (plain : byte ≠ cmdIAC)
  /-- A command of two bytes; IAC IAC is one of them. -/
  | command (code : UInt8) (simple : ¬ isRequest code ∧ code ≠ cmdSB)
  | option (request : UInt8) (asked : isRequest request) (opt : Carried)
  | subnegotiation (content : Content)

namespace Item

def encode : Item → List UInt8
  | .data byte _ => [byte]
  | .command code _ => [cmdIAC, code]
  | .option request _ opt => [cmdIAC, request] ++ opt.encode
  | .subnegotiation content => [cmdIAC, cmdSB] ++ content.encode ++ [cmdIAC, cmdSE]

def outside : Item → List UInt8
  | .data byte _ => [byte]
  | _ => []

def refused : Item → List (List UInt8)
  | .option request _ opt => refusals request opt.byte
  | _ => []

def Fits : Item → Prop
  | .subnegotiation content => content.carried.length < telnetIACMaxLen
  | _ => True

end Item

inductive Unfinished where
  | nothing
  | iac
  | option (request : UInt8) (asked : isRequest request)
  | optionIac (request : UInt8) (asked : isRequest request)
  | subnegotiation (content : Content)
  | subnegotiationIac (content : Content)

namespace Unfinished

def encode : Unfinished → List UInt8
  | .nothing => []
  | .iac => [cmdIAC]
  | .option request _ => [cmdIAC, request]
  | .optionIac request _ => [cmdIAC, request, cmdIAC]
  | .subnegotiation content => [cmdIAC, cmdSB] ++ content.encode
  | .subnegotiationIac content => [cmdIAC, cmdSB] ++ content.encode ++ [cmdIAC]

def Fits : Unfinished → Prop
  | .subnegotiation content | .subnegotiationIac content =>
      content.carried.length < telnetIACMaxLen
  | _ => True

end Unfinished

def encodeStream (items : List Item) (unfinished : Unfinished) : List UInt8 :=
  items.flatMap Item.encode ++ unfinished.encode

theorem Content.encode_append (content : Content) (carried : Carried)
    (inside : carried.quoted = true → carried.byte ≠ cmdSE) :
    ∃ longer : Content, longer.carried = content.carried ++ [carried] ∧
      longer.encode = content.encode ++ carried.encode := by
  refine ⟨⟨content.carried ++ [carried], ?_⟩, rfl, ?_⟩
  · intro byte member
    rcases List.mem_append.mp member with before | last
    · exact content.inside byte before
    · rw [List.mem_singleton.mp last]
      exact inside
  · simp [Content.encode]

theorem encodeStream_snoc (unfinished : Unfinished) (byte : UInt8) :
    ∃ items rest, unfinished.encode ++ [byte] = encodeStream items rest := by
  cases unfinished with
  | nothing =>
      by_cases isIAC : byte = cmdIAC
      · exact ⟨[], .iac, by rw [isIAC]; rfl⟩
      · exact ⟨[.data byte isIAC], .nothing, rfl⟩
  | iac =>
      by_cases request : isRequest byte
      · exact ⟨[], .option byte request, rfl⟩
      · by_cases isSB : byte = cmdSB
        · exact ⟨[], .subnegotiation ⟨[], nofun⟩, by rw [isSB]; rfl⟩
        · exact ⟨[.command byte ⟨request, isSB⟩], .nothing, rfl⟩
  | option request asked =>
      by_cases isIAC : byte = cmdIAC
      · exact ⟨[], .optionIac request asked, by rw [isIAC]; rfl⟩
      · exact ⟨[.option request asked ⟨false, byte, fun _ => isIAC⟩], .nothing, rfl⟩
  | optionIac request asked =>
      exact ⟨[.option request asked ⟨true, byte, nofun⟩], .nothing, rfl⟩
  | subnegotiation content =>
      by_cases isIAC : byte = cmdIAC
      · exact ⟨[], .subnegotiationIac content, by rw [isIAC]; rfl⟩
      · obtain ⟨longer, _carried, encoded⟩ :=
          content.encode_append ⟨false, byte, fun _ => isIAC⟩ nofun
        refine ⟨[], .subnegotiation longer, ?_⟩
        change _ = [cmdIAC, cmdSB] ++ longer.encode
        rw [encoded, ← List.append_assoc]
        rfl
  | subnegotiationIac content =>
      by_cases isSE : byte = cmdSE
      · refine ⟨[.subnegotiation content], .nothing, ?_⟩
        rw [isSE]
        simp [encodeStream, Item.encode, Unfinished.encode]
      · obtain ⟨longer, _carried, encoded⟩ :=
          content.encode_append ⟨true, byte, nofun⟩ (fun _ => isSE)
        refine ⟨[], .subnegotiation longer, ?_⟩
        change _ = [cmdIAC, cmdSB] ++ longer.encode
        rw [encoded]
        simp [Unfinished.encode, Carried.encode]

theorem exists_encodeStream (stream : List UInt8) :
    ∃ items unfinished, stream = encodeStream items unfinished := by
  induction stream using List.reverseRecOn with
  | nil => exact ⟨[], .nothing, rfl⟩
  | append_singleton before byte ih =>
      obtain ⟨items, unfinished, rfl⟩ := ih
      obtain ⟨more, rest, split⟩ := encodeStream_snoc unfinished byte
      refine ⟨items ++ more, rest, ?_⟩
      unfold encodeStream at split ⊢
      rw [List.append_assoc, split, List.flatMap_append, List.append_assoc]

/-! ### The decoder, byte by byte -/

def Event.visible : Event → Bool
  | .updateClientCode _ => false
  | _ => true

def Decoded.visible (decoded : Decoded) : List Event := decoded.events.filter Event.visible

def Event.refusal? : Event → Option (List UInt8)
  | .write [first, answer, option] =>
      if first = cmdIAC ∧ (answer = cmdDONT ∨ answer = cmdWONT) then some [first, answer, option]
      else none
  | _ => none

def Decoded.refused (decoded : Decoded) : List (List UInt8) :=
  decoded.events.filterMap Event.refusal?

namespace Decoded

variable (callback : Callback)

theorem feed_append (decoded : Decoded) (before after : List UInt8) :
    decoded.feed callback (before ++ after) = (decoded.feed callback before).feed callback after :=
  List.foldl_append

@[simp] theorem feed_nil (decoded : Decoded) : decoded.feed callback [] = decoded := rfl

@[simp] theorem feed_cons (decoded : Decoded) (c : UInt8) (rest : List UInt8) :
    decoded.feed callback (c :: rest) = (decoded.feedByte callback c).feed callback rest := rfl

end Decoded

/-! ### What one byte does -/

section Handler

variable (callback : Callback) {ctx : TelnetCtx} {c : UInt8}

theorem telnetHandler_quote (unquoted : ctx.iacQuote = false) :
    telnetHandler callback ctx cmdIAC = ({ ctx with iacQuote := true }, [], true) := by
  unfold telnetHandler
  rw [if_pos ⟨rfl, unquoted⟩]

theorem telnetHandler_data (top : ctx.iacState = .none) (unquoted : ctx.iacQuote = false)
    (plain : c ≠ cmdIAC) :
    telnetHandler callback ctx c = (ctx, clientCodes callback ctx c, false) := by
  simp [telnetHandler, unquote, top, unquoted, plain]

theorem telnetHandler_command (top : ctx.iacState = .none) (quoted : ctx.iacQuote = true) :
    telnetHandler callback ctx c =
      let handled := handleCommand callback { ctx with iacQuote := false, iacState := .command } c
      (handled.1, clientCodes callback ctx c ++ handled.2, true) := by
  simp [telnetHandler, unquote, top, quoted]

theorem telnetHandler_option (awaited : ctx.iacState = .waitOpt)
    (here : ctx.iacQuote = true ∨ c ≠ cmdIAC) :
    telnetHandler callback ctx c =
      let handled := handleOption { ctx with iacQuote := false } c
      (handled.1, clientCodes callback ctx c ++ handled.2, true) := by
  cases quoted : ctx.iacQuote with
  | false =>
      have plain : c ≠ cmdIAC := by simpa [quoted] using here
      simp [telnetHandler, unquote, awaited, quoted, plain, handleOption]
  | true => simp [telnetHandler, unquote, awaited, quoted, handleOption]

theorem telnetHandler_carried (inside : ctx.iacState = .waitSE)
    (here : if ctx.iacQuote then c ≠ cmdSE else c ≠ cmdIAC) :
    telnetHandler callback ctx c =
      let handled := handleSubnegotiation { ctx with iacQuote := false } c
      (handled.1, clientCodes callback ctx c, handled.2) := by
  cases quoted : ctx.iacQuote with
  | false =>
      rw [quoted] at here
      simp only [Bool.false_eq_true, if_false] at here
      simp [telnetHandler, unquote, inside, quoted, here, handleSubnegotiation]
  | true =>
      rw [quoted] at here
      simp only [if_true] at here
      simp [telnetHandler, unquote, inside, quoted, here, handleSubnegotiation]

theorem telnetHandler_end (inside : ctx.iacState = .waitSE) (quoted : ctx.iacQuote = true) :
    telnetHandler callback ctx cmdSE =
      let handled := handleProcessOpt callback
        { ctx with iacQuote := false, iacState := .processOpt }
      (handled.1, clientCodes callback ctx cmdSE ++ handled.2, true) := by
  simp [telnetHandler, unquote, inside, quoted]

end Handler

theorem clientCodes_visible (callback : Callback) (ctx : TelnetCtx) (c : UInt8) :
    (clientCodes callback ctx c).filter Event.visible = [] := by
  unfold clientCodes
  split
  · rfl
  · split <;> rfl

theorem clientCodes_refused (callback : Callback) (ctx : TelnetCtx) (c : UInt8) :
    (clientCodes callback ctx c).filterMap Event.refusal? = [] := by
  unfold clientCodes
  split
  · rfl
  · split <;> rfl

theorem refusals_refused (request option : UInt8) :
    ((refusals request option).map Event.write).filterMap Event.refusal? =
      refusals request option := by
  unfold refusals
  split
  · rfl
  · split
    · by_cases asked : request = cmdDO
      · simp [asked, Event.refusal?]
      · simp [asked, Event.refusal?]
    · rfl

theorem handleProcessOpt_refused (callback : Callback) (ctx : TelnetCtx) :
    (handleProcessOpt callback ctx).2.filterMap Event.refusal? = [] := by
  have codes : ∀ bytes : List UInt8,
      (bytes.map Event.updateClientCode).filterMap Event.refusal? = [] := by
    intro bytes
    induction bytes with
    | nil => rfl
    | cons byte rest ih => exact ih
  unfold handleProcessOpt
  dsimp only
  split
  · rw [List.filterMap_append]
    split <;> split <;> rfl
  · split
    · rw [List.filterMap_append]
      split <;> split <;> first | rfl | exact codes _
    · split
      · exact codes _
      · rfl

/-! ### Chunks -/

namespace Decoded

variable (callback : Callback)

structure Agree (left right : Decoded) : Prop where
  ctx : left.ctx = right.ctx
  data : left.data = right.data
  visible : left.visible = right.visible

section

variable {left right : Decoded} (agree : Agree left right)

include agree

theorem Agree.feedByte (c : UInt8) :
    Agree (left.feedByte callback c) (right.feedByte callback c) := by
  have visible := agree.visible
  unfold Decoded.visible at visible
  constructor
  · simp only [Decoded.feedByte, agree.ctx]
  · simp only [Decoded.feedByte, agree.ctx, agree.data]
  · simp only [Decoded.feedByte, Decoded.visible, agree.ctx, List.filter_append, visible]

theorem Agree.feed (bytes : List UInt8) :
    Agree (left.feed callback bytes) (right.feed callback bytes) := by
  induction bytes generalizing left right with
  | nil => exact agree
  | cons c rest ih => exact ih (agree.feedByte callback c)

theorem agree_feed_plain (top : right.ctx.iacState = .none)
    (unquoted : right.ctx.iacQuote = false) (bytes : List UInt8)
    (plain : cmdIAC ∉ bytes) :
    Agree { left with data := left.data ++ bytes } (right.feed callback bytes) := by
  induction bytes generalizing left right with
  | nil =>
      rw [List.append_nil]
      exact agree
  | cons c rest ih =>
      have first : c ≠ cmdIAC := fun same => plain (same ▸ List.mem_cons_self)
      have handled := telnetHandler_data callback top unquoted first
      have next : Agree { left with data := left.data ++ [c] } (right.feedByte callback c) := by
        constructor
        · simp only [Decoded.feedByte, handled, agree.ctx]
        · simp only [Decoded.feedByte, handled, agree.data]
          rfl
        · have same := agree.visible
          unfold Decoded.visible at same
          simp only [Decoded.feedByte, Decoded.visible, handled, List.filter_append,
            clientCodes_visible, List.append_nil, same]
      have kept : (right.feedByte callback c).ctx = right.ctx := by
        simp only [Decoded.feedByte, handled]
      have after := ih next (by rw [kept, top]) (by rw [kept, unquoted])
        (fun member => plain (List.mem_cons_of_mem c member))
      rw [List.append_assoc] at after
      exact after

theorem Agree.telnetProcess (buf : List UInt8) :
    Agree (left.telnetProcess callback buf) (right.feed callback buf) := by
  unfold Decoded.telnetProcess
  split
  · rename_i fast
    rw [agree.ctx] at fast
    exact agree_feed_plain callback agree fast.1 fast.2.1 buf fast.2.2
  · exact agree.feed callback buf

theorem Agree.processAll (chunks : List (List UInt8)) :
    Agree (left.processAll callback chunks) (right.feed callback chunks.flatten) := by
  induction chunks generalizing left right with
  | nil => exact agree
  | cons chunk rest ih =>
      rw [List.flatten_cons, feed_append]
      exact ih (agree.telnetProcess callback chunk)

end

end Decoded

/-! ### The buffer -/

structure TelnetCtx.Inside (ctx : TelnetCtx) : Prop where
  length : ctx.iacBuf.length = telnetIACMaxLen
  buflen : ctx.iacBuflen ≤ telnetIACMaxLen
  next : ctx.iacState = .waitSE → ctx.iacBuflen < telnetIACMaxLen

namespace TelnetCtx.Inside

variable {ctx : TelnetCtx}

theorem init : ({} : TelnetCtx).Inside := ⟨rfl, Nat.zero_le _, nofun⟩

theorem unquote (inside : ctx.Inside) (c : UInt8) : (unquote ctx c).Inside := by
  unfold Telnet.unquote
  split
  · refine ⟨inside.length, inside.buflen, fun still => ?_⟩
    dsimp only at still
    split at still
    · cases still
    · split at still
      · cases still
      · exact inside.next still
  · exact inside

theorem handleCommand (callback : Callback) (inside : ctx.Inside) (c : UInt8) :
    (handleCommand callback ctx c).1.Inside := by
  unfold Telnet.handleCommand
  split
  · exact ⟨inside.length, inside.buflen, nofun⟩
  · split
    · exact ⟨inside.length, inside.buflen, nofun⟩
    · split
      · exact ⟨inside.length, Nat.zero_le _, fun _ => Nat.zero_lt_succ _⟩
      · exact ⟨inside.length, inside.buflen, nofun⟩

theorem handleSubnegotiation (inside : ctx.Inside) (open' : ctx.iacState = .waitSE) (c : UInt8) :
    (handleSubnegotiation ctx c).1.Inside := by
  have room := inside.next open'
  have length : (ctx.iacBuf.set ctx.iacBuflen c).length = telnetIACMaxLen := by
    rw [List.length_set, inside.length]
  unfold Telnet.handleSubnegotiation
  dsimp only
  split
  · exact ⟨length, room, nofun⟩
  · rename_i more
    exact ⟨length, room, fun _ => Nat.lt_of_le_of_ne room more⟩

theorem telnetHandler (callback : Callback) (inside : ctx.Inside) (c : UInt8) :
    (telnetHandler callback ctx c).1.Inside := by
  unfold Telnet.telnetHandler
  split
  · exact ⟨inside.length, inside.buflen, inside.next⟩
  · have ready := inside.unquote c
    dsimp only
    split
    · exact ready
    · exact ready.handleCommand callback c
    · exact ⟨ready.length, ready.buflen, nofun⟩
    · rename_i state
      exact ready.handleSubnegotiation state c
    · exact ⟨ready.length, ready.buflen, nofun⟩
    · exact ready

end TelnetCtx.Inside

theorem Decoded.inside_feed (callback : Callback) {decoded : Decoded} (inside : decoded.ctx.Inside)
    (bytes : List UInt8) : (decoded.feed callback bytes).ctx.Inside := by
  induction bytes generalizing decoded with
  | nil => exact inside
  | cons c rest ih => exact ih (inside.telnetHandler callback c)

/-! ### Items -/

namespace Decoded

variable (callback : Callback)

structure Reads (before after : Decoded) (data : List UInt8) (refused : List (List UInt8)) : Prop
    where
  top : after.ctx.iacState = .none
  unquoted : after.ctx.iacQuote = false
  data : after.data = before.data ++ data
  refused : after.refused = before.refused ++ refused

structure Collects (before after : Decoded) (count : Nat) : Prop where
  state : after.ctx.iacState = .waitSE
  unquoted : after.ctx.iacQuote = false
  buflen : after.ctx.iacBuflen = count
  data : after.data = before.data
  refused : after.refused = before.refused

theorem refused_feedByte (decoded : Decoded) (c : UInt8) :
    (decoded.feedByte callback c).refused =
      decoded.refused ++ (telnetHandler callback decoded.ctx c).2.1.filterMap Event.refusal? :=
  List.filterMap_append

theorem refused_eq_visible (decoded : Decoded) :
    decoded.refused = decoded.visible.filterMap Event.refusal? := by
  unfold Decoded.refused Decoded.visible
  rw [List.filterMap_filter]
  congr 1
  funext event
  cases event <;> rfl

theorem feedByte_quote {decoded : Decoded} (unquoted : decoded.ctx.iacQuote = false) :
    decoded.feedByte callback cmdIAC =
      { decoded with ctx := { decoded.ctx with iacQuote := true } } := by
  simp only [Decoded.feedByte, telnetHandler_quote callback unquoted, List.append_nil, if_true]

theorem Collects.carried {before after : Decoded} {count : Nat} (collects : Collects before after count)
    (carried : Carried) (inside : carried.quoted = true → carried.byte ≠ cmdSE)
    (room : count + 1 < telnetIACMaxLen) :
    Collects before (after.feed callback carried.encode) (count + 1) := by
  -- The byte itself, after the IAC that may quote it.
  have stored : ∀ decoded : Decoded, decoded.ctx.iacState = .waitSE →
      decoded.ctx.iacBuflen = count → decoded.data = before.data →
      decoded.refused = before.refused →
      (if decoded.ctx.iacQuote then carried.byte ≠ cmdSE else carried.byte ≠ cmdIAC) →
      Collects before (decoded.feedByte callback carried.byte) (count + 1) := by
    intro decoded state buflen data refused here
    have handled := telnetHandler_carried callback state here
    have more : decoded.ctx.iacBuflen + 1 ≠ telnetIACMaxLen := by
      rw [buflen]
      exact Nat.ne_of_lt room
    simp only [handleSubnegotiation, if_neg more] at handled
    constructor
    · simp only [Decoded.feedByte, handled, state]
    · simp only [Decoded.feedByte, handled]
    · simp only [Decoded.feedByte, handled, buflen]
    · simp only [Decoded.feedByte, handled, if_true, data]
    · rw [refused_feedByte, handled, clientCodes_refused, List.append_nil, refused]
  unfold Carried.encode
  cases quoted : carried.quoted with
  | false =>
      refine stored after collects.state collects.buflen collects.data collects.refused ?_
      rw [collects.unquoted]
      exact carried.plain quoted
  | true =>
      change Collects before ((after.feedByte callback cmdIAC).feedByte callback carried.byte) _
      rw [feedByte_quote callback collects.unquoted]
      exact stored _ collects.state collects.buflen collects.data collects.refused
        (inside quoted)

theorem Collects.content {before after : Decoded} {count : Nat}
    (collects : Collects before after count) (content : List Carried)
    (inside : ∀ byte ∈ content, byte.quoted = true → byte.byte ≠ cmdSE)
    (room : count + content.length < telnetIACMaxLen) :
    Collects before (after.feed callback (content.flatMap Carried.encode))
      (count + content.length) := by
  induction content generalizing after count with
  | nil => exact collects
  | cons first rest ih =>
      rw [List.length_cons] at room ⊢
      have next := collects.carried callback first (inside first List.mem_cons_self) (by omega)
      have all := ih next (fun byte member => inside byte (List.mem_cons_of_mem first member))
        (by omega)
      rw [List.flatMap_cons, feed_append, show count + (rest.length + 1) = count + 1 + rest.length
        from by omega]
      exact all

theorem collects_start {before : Decoded} (top : before.ctx.iacState = .none)
    (unquoted : before.ctx.iacQuote = false) :
    Collects before (before.feed callback [cmdIAC, cmdSB]) 0 := by
  rw [feed_cons, feedByte_quote callback unquoted]
  have handled : telnetHandler callback { before.ctx with iacQuote := true } cmdSB = _ :=
    telnetHandler_command callback top rfl
  constructor
  · simp only [feed_cons, feed_nil, Decoded.feedByte, handled]
    rfl
  · simp only [feed_cons, feed_nil, Decoded.feedByte, handled]
    rfl
  · simp only [feed_cons, feed_nil, Decoded.feedByte, handled]
    rfl
  · simp only [feed_cons, feed_nil, Decoded.feedByte, handled, if_true]
  · rw [feed_cons, feed_nil, refused_feedByte, handled]
    simp only [List.filterMap_append, clientCodes_refused]
    exact List.append_nil _

end Decoded

namespace Decoded

variable (callback : Callback) {before : Decoded}

section

variable (top : before.ctx.iacState = .none) (unquoted : before.ctx.iacQuote = false)

include top unquoted

theorem reads_command {code : UInt8}
    (simple : ¬ isRequest code ∧ code ≠ cmdSB) :
    Reads before (before.feed callback [cmdIAC, code]) [] [] := by
  rw [feed_cons, feedByte_quote callback unquoted]
  have handled : telnetHandler callback { before.ctx with iacQuote := true } code = _ :=
    telnetHandler_command callback top rfl
  have ayt : [telnetSendAyt callback].filterMap Event.refusal? = [] := by
    unfold telnetSendAyt
    split <;> rfl
  have request : ¬ (code = cmdDONT ∨ code = cmdDO ∨ code = cmdWONT ∨ code = cmdWILL) := simple.1
  rw [feed_cons, feed_nil]
  by_cases isAYT : code = cmdAYT
  · simp only [handleCommand, if_pos isAYT] at handled
    constructor
    · simp only [Decoded.feedByte, handled]
    · simp only [Decoded.feedByte, handled]
    · simp only [Decoded.feedByte, handled, if_true, List.append_nil]
    · rw [refused_feedByte, handled, List.filterMap_append, clientCodes_refused, ayt]
      rfl
  · simp only [handleCommand, if_neg isAYT, if_neg request, if_neg simple.2] at handled
    constructor
    · simp only [Decoded.feedByte, handled]
    · simp only [Decoded.feedByte, handled]
    · simp only [Decoded.feedByte, handled, if_true, List.append_nil]
    · rw [refused_feedByte, handled, List.append_nil, clientCodes_refused]
      rfl

theorem awaits_option {request : UInt8} (asked : isRequest request) :
    let after := before.feed callback [cmdIAC, request]
    after.ctx.iacState = .waitOpt ∧ after.ctx.iacQuote = false ∧ after.ctx.iacOptReq = request ∧
      after.data = before.data ∧ after.refused = before.refused := by
  have handled : telnetHandler callback { before.ctx with iacQuote := true } request = _ :=
    telnetHandler_command callback top rfl
  have notAYT : request ≠ cmdAYT := by
    rintro rfl
    exact absurd asked (by decide)
  have listed : request = cmdDONT ∨ request = cmdDO ∨ request = cmdWONT ∨ request = cmdWILL := asked
  simp only [handleCommand, if_neg notAYT, if_pos listed] at handled
  dsimp only
  rw [feed_cons, feedByte_quote callback unquoted, feed_cons, feed_nil]
  refine ⟨?_, ?_, ?_, ?_, ?_⟩
  · simp only [Decoded.feedByte, handled]
  · simp only [Decoded.feedByte, handled]
  · simp only [Decoded.feedByte, handled]
  · simp only [Decoded.feedByte, handled, if_true]
  · rw [refused_feedByte, handled, List.append_nil, clientCodes_refused]
    exact List.append_nil _

theorem reads_option {request : UInt8} (asked : isRequest request)
    (opt : Carried) :
    Reads before (before.feed callback ([cmdIAC, request] ++ opt.encode)) []
      (refusals request opt.byte) := by
  obtain ⟨state, open', requested, data, refused⟩ := awaits_option callback top unquoted asked
  rw [feed_append]
  generalize before.feed callback [cmdIAC, request] = after at state open' requested data refused ⊢
  -- The option byte, after the IAC that may quote it.
  have answered : ∀ decoded : Decoded, decoded.ctx.iacState = .waitOpt →
      decoded.ctx.iacOptReq = request → decoded.data = before.data →
      decoded.refused = before.refused → (decoded.ctx.iacQuote = true ∨ opt.byte ≠ cmdIAC) →
      Reads before (decoded.feedByte callback opt.byte) [] (refusals request opt.byte) := by
    intro decoded awaited same data refused here
    have handled := telnetHandler_option callback awaited here
    simp only [handleOption, same] at handled
    constructor
    · simp only [Decoded.feedByte, handled]
    · simp only [Decoded.feedByte, handled]
    · simp only [Decoded.feedByte, handled, if_true, data, List.append_nil]
    · rw [refused_feedByte, handled, List.filterMap_append, clientCodes_refused,
        refusals_refused, refused]
      rfl
  unfold Carried.encode
  cases quoted : opt.quoted with
  | false => exact answered after state requested data refused (.inr (opt.plain quoted))
  | true =>
      change Reads before ((after.feedByte callback cmdIAC).feedByte callback opt.byte) _ _
      rw [feedByte_quote callback open']
      exact answered _ state requested data refused (.inl rfl)

theorem reads_subnegotiation (content : Content)
    (fits : content.carried.length < telnetIACMaxLen) :
    Reads before (before.feed callback ([cmdIAC, cmdSB] ++ content.encode ++ [cmdIAC, cmdSE]))
      [] [] := by
  rw [feed_append, feed_append]
  have collects := (collects_start callback top unquoted).content callback content.carried
    content.inside (by omega)
  change Collects before ((before.feed callback [cmdIAC, cmdSB]).feed callback content.encode) _
    at collects
  generalize (before.feed callback [cmdIAC, cmdSB]).feed callback content.encode = after
    at collects ⊢
  rw [feed_cons, feedByte_quote callback collects.unquoted, feed_cons, feed_nil]
  have handled : telnetHandler callback { after.ctx with iacQuote := true } cmdSE = _ :=
    telnetHandler_end callback collects.state rfl
  constructor
  · simp only [Decoded.feedByte, handled]
    rfl
  · simp only [Decoded.feedByte, handled]
    rfl
  · simp only [Decoded.feedByte, handled, if_true, collects.data, List.append_nil]
  · rw [refused_feedByte, handled, List.filterMap_append, clientCodes_refused,
      handleProcessOpt_refused]
    change after.refused ++ [] = _
    rw [collects.refused]

theorem reads_item (item : Item) (fits : item.Fits) :
    Reads before (before.feed callback item.encode) item.outside item.refused := by
  cases item with
  | data byte plain =>
      have handled := telnetHandler_data callback top unquoted plain
      constructor
      · simp only [Item.encode, feed_cons, feed_nil, Decoded.feedByte, handled, top]
      · simp only [Item.encode, feed_cons, feed_nil, Decoded.feedByte, handled, unquoted]
      · simp only [Item.encode, Item.outside, feed_cons, feed_nil, Decoded.feedByte, handled]
        rfl
      · rw [Item.encode, feed_cons, feed_nil, refused_feedByte, handled, clientCodes_refused]
        rfl
  | command code simple => exact reads_command callback top unquoted simple
  | option request asked opt => exact reads_option callback top unquoted asked opt
  | subnegotiation content => exact reads_subnegotiation callback top unquoted content fits

theorem reads_items (items : List Item) (fits : ∀ item ∈ items, item.Fits) :
    Reads before (before.feed callback (items.flatMap Item.encode)) (items.flatMap Item.outside)
      (items.flatMap Item.refused) := by
  induction items generalizing before with
  | nil =>
      exact ⟨top, unquoted, (List.append_nil _).symm, (List.append_nil _).symm⟩
  | cons item rest ih =>
      have first := reads_item callback top unquoted item (fits item List.mem_cons_self)
      have others := ih first.top first.unquoted
        (fun other member => fits other (List.mem_cons_of_mem item member))
      rw [List.flatMap_cons, feed_append]
      refine ⟨others.top, others.unquoted, ?_, ?_⟩
      · rw [others.data, first.data, List.append_assoc, List.flatMap_cons]
      · rw [others.refused, first.refused, List.append_assoc, List.flatMap_cons]

theorem reads_unfinished (unfinished : Unfinished) (fits : unfinished.Fits) :
    (before.feed callback unfinished.encode).data = before.data ∧
      (before.feed callback unfinished.encode).refused = before.refused := by
  -- An IAC at the end changes neither.
  have quote : ∀ decoded : Decoded, decoded.ctx.iacQuote = false →
      (decoded.feed callback [cmdIAC]).data = decoded.data ∧
        (decoded.feed callback [cmdIAC]).refused = decoded.refused := by
    intro decoded free
    rw [feed_cons, feedByte_quote callback free]
    exact ⟨rfl, rfl⟩
  cases unfinished with
  | nothing => exact ⟨rfl, rfl⟩
  | iac => exact quote before unquoted
  | option request asked =>
      obtain ⟨_state, _open, _requested, data, refused⟩ :=
        awaits_option callback top unquoted asked
      exact ⟨data, refused⟩
  | optionIac request asked =>
      obtain ⟨_state, open', _requested, data, refused⟩ :=
        awaits_option callback top unquoted asked
      have last := quote _ open'
      rw [← feed_append] at last
      exact ⟨last.1.trans data, last.2.trans refused⟩
  | subnegotiation content =>
      have collects := (collects_start callback top unquoted).content callback content.carried
        content.inside (by rw [Nat.zero_add]; exact fits)
      rw [← feed_append] at collects
      exact ⟨collects.data, collects.refused⟩
  | subnegotiationIac content =>
      have collects := (collects_start callback top unquoted).content callback content.carried
        content.inside (by rw [Nat.zero_add]; exact fits)
      rw [← feed_append] at collects
      have last := quote _ collects.unquoted
      rw [← feed_append] at last
      exact ⟨last.1.trans collects.data, last.2.trans collects.refused⟩

end

end Decoded

/-! ### The decoder of a connection -/

/-- However a stream is cut, its bytes are decoded one by one and the buffer is not
overrun.  While no subnegotiation fills the buffer, what is handed on are the bytes
outside of commands, and each request of an option that is not supported is refused
once; in the place of an option an IAC quotes the byte after it. -/
theorem processAll_stream (callback : Callback) (chunks : List (List UInt8)) :
    let bytewise := telnetCtxInit.feed callback chunks.flatten
    let chunked := telnetCtxInit.processAll callback chunks
    (chunked.ctx = bytewise.ctx ∧ chunked.data = bytewise.data ∧
      chunked.visible = bytewise.visible) ∧
    (∀ before after, chunks.flatten = before ++ after →
      (telnetCtxInit.feed callback before).ctx.Inside) ∧
    (∃ items unfinished, chunks.flatten = encodeStream items unfinished) ∧
    ∀ items unfinished, chunks.flatten = encodeStream items unfinished →
      (∀ item ∈ items, item.Fits) → unfinished.Fits →
        chunked.data = items.flatMap Item.outside ∧
          chunked.refused = items.flatMap Item.refused := by
  have agree : Decoded.Agree (telnetCtxInit.processAll callback chunks)
      (telnetCtxInit.feed callback chunks.flatten) :=
    Decoded.Agree.processAll callback ⟨rfl, rfl, rfl⟩ chunks
  refine ⟨⟨agree.ctx, agree.data, agree.visible⟩, ?_, exists_encodeStream _, ?_⟩
  · intro before after _split
    exact Decoded.inside_feed callback TelnetCtx.Inside.init before
  · intro items unfinished split fits unfinishedFits
    have first : Decoded.Reads telnetCtxInit _ _ _ :=
      Decoded.reads_items callback rfl rfl items fits
    have rest := Decoded.reads_unfinished callback first.top first.unquoted unfinished
      unfinishedFits
    rw [← Decoded.feed_append, ← encodeStream, ← split] at rest
    constructor
    · rw [agree.data, rest.1, first.data]
      rfl
    · rw [Decoded.refused_eq_visible, agree.visible, ← Decoded.refused_eq_visible, rest.2,
        first.refused]
      rfl

/-- The option 255 of a DO is taken for a quote: the data byte after it is swallowed
and refused in its place. -/
theorem option_255_quotes :
    let request : List UInt8 := [cmdIAC, cmdDO, 255]
    let chunked := telnetCtxInit.processAll {} [request ++ [65]]
    chunked.data ≠ [65] ∧ chunked.refused ≠ [[cmdIAC, cmdWONT, 255]] ∧
      chunked.data = [] ∧ chunked.refused = [[cmdIAC, cmdWONT, 65]] := by
  decide

end Pttbbs.Common.Telnet
