/-
What the decoder reports about a client.

The program is told the size and the type of the client's terminal and a code that is
computed from the commands the client sends.  The bytes outside of commands go into that
code only where the chunk they came in is looked into, and a subnegotiation is read out of
a buffer that still holds the bytes of earlier ones.
-/

import Pttbbs.Common.TelnetStream
import Mathlib.Data.List.GetD

namespace Pttbbs.Common.Telnet

/-! ### Places in a stream -/

/-- Where a stream stands: outside of commands, or inside of one.  A subnegotiation ends
with IAC SE or with the byte that fills the buffer. -/
inductive Place where
  | top
  | iac
  | option
  | optionIac
  | content (count : Nat)
  | contentIac (count : Nat)
deriving DecidableEq, Repr

namespace Place

def collect (count : Nat) : Place :=
  if count + 1 = telnetIACMaxLen then .top else .content (count + 1)

def next : Place → UInt8 → Place
  | .top, c => if c = cmdIAC then .iac else .top
  | .iac, c => if isRequest c then .option else if c = cmdSB then .content 0 else .top
  | .option, c => if c = cmdIAC then .optionIac else .top
  | .optionIac, _ => .top
  | .content count, c => if c = cmdIAC then .contentIac count else collect count
  | .contentIac count, c => if c = cmdSE then .top else collect count

def outside : Place → List UInt8 → List UInt8
  | _, [] => []
  | place, c :: rest =>
      if place = .top ∧ c ≠ cmdIAC then c :: outside (place.next c) rest
      else outside (place.next c) rest

end Place

def TelnetCtx.place (ctx : TelnetCtx) : Place :=
  match ctx.iacState, ctx.iacQuote with
  | .waitOpt, false => .option
  | .waitOpt, true => .optionIac
  | .waitSE, false => .content ctx.iacBuflen
  | .waitSE, true => .contentIac ctx.iacBuflen
  | _, false => .top
  | _, true => .iac

def TelnetCtx.Rests (ctx : TelnetCtx) : Prop :=
  ctx.iacState = .none ∨ ctx.iacState = .waitOpt ∨ ctx.iacState = .waitSE

section Step

variable (callback : Callback) {ctx : TelnetCtx}

theorem TelnetCtx.Rests.init : ({} : TelnetCtx).Rests := Or.inl rfl

theorem handleSubnegotiation_place (ctx : TelnetCtx) (c : UInt8) (inside : ctx.iacState = .waitSE)
    (unquoted : ctx.iacQuote = false) :
    (handleSubnegotiation ctx c).1.Rests ∧
      (handleSubnegotiation ctx c).1.place = Place.collect ctx.iacBuflen := by
  unfold handleSubnegotiation Place.collect
  dsimp only
  split
  · refine ⟨Or.inl rfl, ?_⟩
    simp only [TelnetCtx.place, unquoted]
  · refine ⟨Or.inr (Or.inr inside), ?_⟩
    simp only [TelnetCtx.place, inside, unquoted]

theorem telnetHandler_place (rests : ctx.Rests) (c : UInt8) :
    (telnetHandler callback ctx c).1.Rests ∧
      (telnetHandler callback ctx c).1.place = ctx.place.next c := by
  cases quoted : ctx.iacQuote with
  | false =>
      by_cases isIAC : c = cmdIAC
      · subst isIAC
        rw [telnetHandler_quote callback quoted]
        refine ⟨rests, ?_⟩
        rcases rests with state | state | state <;>
          simp only [TelnetCtx.place, state, quoted, Place.next, if_true]
      · rcases rests with state | state | state
        · rw [telnetHandler_data callback state quoted isIAC]
          refine ⟨Or.inl state, ?_⟩
          simp only [TelnetCtx.place, state, quoted, Place.next, if_neg isIAC]
        · rw [telnetHandler_option callback state (Or.inr isIAC)]
          refine ⟨Or.inl rfl, ?_⟩
          simp only [TelnetCtx.place, handleOption, state, quoted, Place.next, if_neg isIAC]
        · rw [telnetHandler_carried callback state (by rw [quoted]; exact isIAC)]
          obtain ⟨after, place⟩ := handleSubnegotiation_place { ctx with iacQuote := false } c
            state rfl
          refine ⟨after, place.trans ?_⟩
          simp only [TelnetCtx.place, state, quoted, Place.next, if_neg isIAC]
  | true =>
      rcases rests with state | state | state
      · rw [telnetHandler_command callback state quoted]
        have here : ctx.place = .iac := by
          simp only [TelnetCtx.place, state, quoted]
        rw [here]
        unfold handleCommand Place.next
        by_cases isAYT : c = cmdAYT
        · subst isAYT
          exact ⟨Or.inl rfl, rfl⟩
        · by_cases request : isRequest c
          · have asked : c = cmdDONT ∨ c = cmdDO ∨ c = cmdWONT ∨ c = cmdWILL := request
            simp only [if_neg isAYT, if_pos asked, if_pos request]
            exact ⟨Or.inr (Or.inl rfl), rfl⟩
          · have other : ¬ (c = cmdDONT ∨ c = cmdDO ∨ c = cmdWONT ∨ c = cmdWILL) := request
            simp only [if_neg isAYT, if_neg other, if_neg request]
            by_cases isSB : c = cmdSB
            · simp only [if_pos isSB]
              exact ⟨Or.inr (Or.inr rfl), rfl⟩
            · simp only [if_neg isSB]
              exact ⟨Or.inl rfl, rfl⟩
      · rw [telnetHandler_option callback state (Or.inl quoted)]
        refine ⟨Or.inl rfl, ?_⟩
        simp only [TelnetCtx.place, handleOption, state, quoted, Place.next]
      · have here : ctx.place = .contentIac ctx.iacBuflen := by
          simp only [TelnetCtx.place, state, quoted]
        rw [here]
        by_cases isSE : c = cmdSE
        · subst isSE
          rw [telnetHandler_end callback state quoted]
          exact ⟨Or.inl rfl, rfl⟩
        · rw [telnetHandler_carried callback state (by rw [quoted]; exact isSE)]
          obtain ⟨after, place⟩ := handleSubnegotiation_place { ctx with iacQuote := false } c
            state rfl
          refine ⟨after, place.trans ?_⟩
          simp only [Place.next, if_neg isSE]

end Step

/-! ### The code of the client -/

def Event.code? : Event → Option UInt8
  | .updateClientCode code => some code
  | _ => none

def Decoded.codes (decoded : Decoded) : List UInt8 := decoded.events.filterMap Event.code?

def SameCodes (callback : Callback) (stream : List UInt8) : Prop :=
  ∀ left right : List (List UInt8), left.flatten = stream → right.flatten = stream →
    (telnetCtxInit.processAll callback left).codes = (telnetCtxInit.processAll callback right).codes

namespace Decoded

variable (callback : Callback)

theorem codes_feedByte (decoded : Decoded) (c : UInt8) :
    (decoded.feedByte callback c).codes =
      decoded.codes ++ (telnetHandler callback decoded.ctx c).2.1.filterMap Event.code? :=
  List.filterMap_append

theorem ctx_feedByte (decoded : Decoded) (c : UInt8) :
    (decoded.feedByte callback c).ctx = (telnetHandler callback decoded.ctx c).1 := rfl

def placeAfter (place : Place) (bytes : List UInt8) : Place := bytes.foldl Place.next place

theorem rests_feed {decoded : Decoded} (rests : decoded.ctx.Rests) (bytes : List UInt8) :
    (decoded.feed callback bytes).ctx.Rests ∧
      (decoded.feed callback bytes).ctx.place = placeAfter decoded.ctx.place bytes := by
  induction bytes generalizing decoded with
  | nil => exact ⟨rests, rfl⟩
  | cons c rest ih =>
      obtain ⟨after, place⟩ := telnetHandler_place callback rests c
      rw [feed_cons]
      obtain ⟨final, reached⟩ := @ih (decoded.feedByte callback c) after
      refine ⟨final, reached.trans ?_⟩
      rw [ctx_feedByte, place]
      rfl

theorem outside_append (place : Place) (before after : List UInt8) :
    place.outside (before ++ after) =
      place.outside before ++ (placeAfter place before).outside after := by
  induction before generalizing place with
  | nil => rfl
  | cons c rest ih =>
      rw [List.cons_append, Place.outside, Place.outside, ih]
      split
      · rfl
      · rfl

theorem outside_top {bytes : List UInt8} (plain : cmdIAC ∉ bytes) :
    Place.outside .top bytes = bytes := by
  induction bytes with
  | nil => rfl
  | cons c rest ih =>
      have first : c ≠ cmdIAC := fun same => plain (same ▸ List.mem_cons_self)
      rw [Place.outside, if_pos ⟨rfl, first⟩, Place.next, if_neg first,
        ih fun member => plain (List.mem_cons_of_mem c member)]

theorem place_top {ctx : TelnetCtx} (top : ctx.iacState = .none) (unquoted : ctx.iacQuote = false) :
    ctx.place = .top := by
  simp only [TelnetCtx.place, top, unquoted]

theorem telnetProcess_eq_feed {decoded : Decoded} {buf : List UInt8}
    (inside : decoded.ctx.place.outside buf = []) :
    decoded.telnetProcess callback buf = decoded.feed callback buf := by
  unfold telnetProcess
  split
  · rename_i fast
    rw [place_top fast.1 fast.2.1, outside_top fast.2.2] at inside
    rw [inside, List.append_nil, feed_nil]
  · rfl

theorem processAll_eq_feed {decoded : Decoded} {chunks : List (List UInt8)}
    (rests : decoded.ctx.Rests) (inside : decoded.ctx.place.outside chunks.flatten = []) :
    decoded.processAll callback chunks = decoded.feed callback chunks.flatten := by
  induction chunks generalizing decoded with
  | nil => rfl
  | cons chunk rest ih =>
      rw [List.flatten_cons, outside_append, List.append_eq_nil_iff] at inside
      obtain ⟨after, place⟩ := rests_feed callback rests chunk
      have first := telnetProcess_eq_feed callback inside.1
      change (decoded.telnetProcess callback chunk).processAll callback rest = _
      rw [first, List.flatten_cons, feed_append]
      apply ih after
      rw [place]
      exact inside.2

theorem codes_processAll_plain {decoded : Decoded} {chunks : List (List UInt8)}
    (top : decoded.ctx.iacState = .none) (unquoted : decoded.ctx.iacQuote = false)
    (plain : cmdIAC ∉ chunks.flatten) : (decoded.processAll callback chunks).codes = decoded.codes := by
  induction chunks generalizing decoded with
  | nil => rfl
  | cons chunk rest ih =>
      rw [List.flatten_cons, List.mem_append, not_or] at plain
      change ((decoded.telnetProcess callback chunk).processAll callback rest).codes = _
      have fast : decoded.telnetProcess callback chunk =
          { decoded with data := decoded.data ++ chunk } := by
        unfold telnetProcess
        rw [if_pos ⟨top, unquoted, plain.1⟩]
      rw [fast]
      exact @ih { decoded with data := decoded.data ++ chunk } top unquoted plain.2

theorem codes_processAll_single (reported : callback.updateClientCode = true)
    {whole single : Decoded} (same : whole.ctx = single.ctx) (rests : whole.ctx.Rests)
    {extra : Nat} (behind : whole.codes.length = single.codes.length + extra)
    (stream : List UInt8) :
    (whole.feed callback stream).codes.length =
      (single.processAll callback (stream.map fun c => [c])).codes.length +
        (extra + (whole.ctx.place.outside stream).length) := by
  induction stream generalizing whole single extra with
  | nil => exact behind
  | cons c rest ih =>
      obtain ⟨after, place⟩ := telnetHandler_place callback rests c
      rw [feed_cons]
      change _ = ((single.telnetProcess callback [c]).processAll callback
        (rest.map fun c => [c])).codes.length + _
      rw [Place.outside]
      by_cases data : whole.ctx.place = .top ∧ c ≠ cmdIAC
      · have state : whole.ctx.iacState = .none ∧ whole.ctx.iacQuote = false := by
          have atTop := data.1
          rcases rests with state | state | state <;> cases quoted : whole.ctx.iacQuote <;>
            simp_all [TelnetCtx.place]
        have handled := telnetHandler_data callback state.1 state.2 data.2
        have codes : clientCodes callback whole.ctx c = [.updateClientCode c] := by
          unfold clientCodes
          rw [reported, state.1, state.2]
          rfl
        have fast : single.telnetProcess callback [c] =
            { single with data := single.data ++ [c] } := by
          unfold telnetProcess
          rw [← same, if_pos ⟨state.1, state.2, by simpa using fun equal => data.2 equal.symm⟩]
        have kept : (whole.feedByte callback c).ctx = whole.ctx := by
          rw [ctx_feedByte, handled]
        have longer : (whole.feedByte callback c).codes.length =
            single.codes.length + (extra + 1) := by
          rw [codes_feedByte, handled, codes, List.length_append, behind]
          rfl
        rw [if_pos data, fast, List.length_cons]
        have next := @ih _ { single with data := single.data ++ [c] } (kept.trans same)
          (by rw [kept]; exact rests) _ longer
        rw [next, ctx_feedByte, place]
        omega
      · have slow : single.telnetProcess callback [c] = single.feedByte callback c := by
          unfold telnetProcess
          rw [if_neg]
          · rfl
          · rintro ⟨top, unquoted, plain⟩
            apply data
            rw [same]
            exact ⟨place_top top unquoted, fun equal => plain (equal ▸ List.mem_cons_self)⟩
        have longer : (whole.feedByte callback c).codes.length =
            (single.feedByte callback c).codes.length + extra := by
          rw [codes_feedByte, codes_feedByte, same, List.length_append, List.length_append, behind]
          omega
        rw [if_neg data, slow]
        have next := @ih _ (single.feedByte callback c)
          (by rw [ctx_feedByte, ctx_feedByte, same]) after _ longer
        rw [next, ctx_feedByte, place]

end Decoded

theorem telnetHandler_codes_off {callback : Callback} (off : callback.updateClientCode = false)
    (ctx : TelnetCtx) (c : UInt8) :
    (telnetHandler callback ctx c).2.1.filterMap Event.code? = [] := by
  have codes : clientCodes callback ctx c = [] := by
    unfold clientCodes
    rw [off]
    rfl
  have ayt : [telnetSendAyt callback].filterMap Event.code? = [] := by
    unfold telnetSendAyt
    split <;> rfl
  have writes : ∀ texts : List (List UInt8), (texts.map Event.write).filterMap Event.code? = [] := by
    intro texts
    induction texts with
    | nil => rfl
    | cons text rest ih => exact ih
  unfold telnetHandler
  split
  · rfl
  · dsimp only
    rw [codes]
    split
    · rfl
    · unfold handleCommand
      split
      · exact ayt
      · split
        · rfl
        · split <;> rfl
    · exact writes _
    · rfl
    · unfold handleProcessOpt
      simp only [off, Bool.false_eq_true, if_false, List.append_nil, List.nil_append]
      split
      · split <;> rfl
      · split
        · split <;> rfl
        · rfl
    · rfl

theorem Decoded.codes_feed_off {callback : Callback} (off : callback.updateClientCode = false)
    (decoded : Decoded) (bytes : List UInt8) : (decoded.feed callback bytes).codes = decoded.codes := by
  induction bytes generalizing decoded with
  | nil => rfl
  | cons c rest ih =>
      rw [feed_cons, ih, codes_feedByte, telnetHandler_codes_off off, List.append_nil]

theorem Decoded.codes_processAll_off {callback : Callback}
    (off : callback.updateClientCode = false) (decoded : Decoded) (chunks : List (List UInt8)) :
    (decoded.processAll callback chunks).codes = decoded.codes := by
  induction chunks generalizing decoded with
  | nil => rfl
  | cons chunk rest ih =>
      change ((decoded.telnetProcess callback chunk).processAll callback rest).codes = _
      rw [ih]
      unfold telnetProcess
      split
      · rfl
      · exact codes_feed_off off decoded chunk

theorem sameCodes_iff (callback : Callback) (stream : List UInt8) :
    SameCodes callback stream ↔ callback.updateClientCode = false ∨ cmdIAC ∉ stream ∨
      Place.outside .top stream = [] := by
  constructor
  · intro same
    by_contra other
    simp only [not_or, Bool.not_eq_false, not_not] at other
    obtain ⟨reported, hasIAC, someData⟩ := other
    have whole : telnetCtxInit.processAll callback [stream] =
        telnetCtxInit.feed callback stream := by
      change telnetCtxInit.telnetProcess callback stream = _
      unfold Decoded.telnetProcess
      rw [if_neg fun fast => fast.2.2 hasIAC]
    have single : (stream.map fun c => [c]).flatten = stream := by
      rw [← List.flatMap_def, List.flatMap_singleton']
    have lengths := congrArg List.length
      (same [stream] (stream.map fun c => [c]) (List.append_nil stream) single)
    have counted : (telnetCtxInit.feed callback stream).codes.length =
        (telnetCtxInit.processAll callback (stream.map fun c => [c])).codes.length +
          (0 + (Place.outside .top stream).length) :=
      Decoded.codes_processAll_single callback reported rfl .init rfl stream
    have positive := List.length_pos_of_ne_nil someData
    rw [whole, counted] at lengths
    omega
  · rintro (off | plain | inside) left right leftWhole rightWhole
    · rw [Decoded.codes_processAll_off off, Decoded.codes_processAll_off off]
    · rw [Decoded.codes_processAll_plain callback rfl rfl (leftWhole ▸ plain),
        Decoded.codes_processAll_plain callback rfl rfl (rightWhole ▸ plain)]
    · have leftInside : telnetCtxInit.ctx.place.outside left.flatten = [] := leftWhole ▸ inside
      have rightInside : telnetCtxInit.ctx.place.outside right.flatten = [] := rightWhole ▸ inside
      rw [Decoded.processAll_eq_feed callback .init leftInside,
        Decoded.processAll_eq_feed callback .init rightInside, leftWhole, rightWhole]

/-! ### Subnegotiations -/

def Event.isReport : Event → Bool
  | .termResize _ _ => true
  | .ttype _ => true
  | .updateClientCode _ => true
  | _ => false

def ctxAfter (callback : Callback) (history : List (List UInt8)) : TelnetCtx :=
  (telnetCtxInit.processAll callback history).ctx

def reportsOf (callback : Callback) (ctx : TelnetCtx) (buf : List UInt8) : List Event :=
  (({ ctx := ctx } : Decoded).telnetProcess callback buf).events.filter Event.isReport

/-- Whatever was received before, outside of a command, the subnegotiation is reported in
the same way. -/
def Determined (callback : Callback) (content : Content) : Prop :=
  ∀ left right : List (List UInt8),
    (ctxAfter callback left).place = .top → (ctxAfter callback right).place = .top →
    reportsOf callback (ctxAfter callback left) (Item.subnegotiation content).encode =
      reportsOf callback (ctxAfter callback right) (Item.subnegotiation content).encode

/-- A state in the middle of a subnegotiation: the buffer begins with what was carried. -/
def TelnetCtx.collected (ctx : TelnetCtx) (bytes : List UInt8) : TelnetCtx :=
  { ctx with
    iacState := .waitSE
    iacQuote := false
    iacBuf := bytes ++ ctx.iacBuf.drop bytes.length
    iacBuflen := bytes.length }

section Subnegotiation

variable (callback : Callback) {ctx : TelnetCtx} {bytes : List UInt8}

theorem collected_set (buflen : ctx.iacBuf.length = telnetIACMaxLen)
    (room : bytes.length < telnetIACMaxLen) (c : UInt8) :
    (ctx.collected bytes).iacBuf.set bytes.length c = (ctx.collected (bytes ++ [c])).iacBuf := by
  have rest : ctx.iacBuf.drop bytes.length =
      ctx.iacBuf[bytes.length] :: ctx.iacBuf.drop (bytes.length + 1) :=
    List.drop_eq_getElem_cons (by rw [buflen]; exact room)
  change (bytes ++ ctx.iacBuf.drop bytes.length).set bytes.length c = _
  rw [rest, List.set_append_right _ _ (Nat.le_refl _), Nat.sub_self, List.set_cons_zero]
  change _ = (bytes ++ [c]) ++ ctx.iacBuf.drop (bytes ++ [c]).length
  rw [List.length_append, List.append_assoc]
  rfl

def TelnetCtx.carriedTo (ctx : TelnetCtx) (bytes : List UInt8) : TelnetCtx :=
  if bytes.length = telnetIACMaxLen then { ctx.collected bytes with iacState := .none }
  else ctx.collected bytes

theorem feed_carried (buflen : ctx.iacBuf.length = telnetIACMaxLen)
    (room : bytes.length < telnetIACMaxLen) {decoded : Decoded}
    (here : decoded.ctx = ctx.collected bytes) (carried : Carried)
    (inside : carried.quoted = true → carried.byte ≠ cmdSE) :
    (decoded.feed callback carried.encode).ctx = ctx.carriedTo (bytes ++ [carried.byte]) ∧
      (decoded.feed callback carried.encode).events = decoded.events := by
  have stored : ∀ other : Decoded, other.ctx.iacState = .waitSE →
      { other.ctx with iacQuote := false } = ctx.collected bytes →
      (if other.ctx.iacQuote then carried.byte ≠ cmdSE else carried.byte ≠ cmdIAC) →
      (other.feedByte callback carried.byte).ctx = ctx.carriedTo (bytes ++ [carried.byte]) ∧
        (other.feedByte callback carried.byte).events = other.events := by
    intro other state same plain
    have handled := telnetHandler_carried callback state plain
    have codes : clientCodes callback other.ctx carried.byte = [] := by
      unfold clientCodes
      rw [state]
      simp
    rw [same, codes] at handled
    simp only [Decoded.feedByte, handled, List.append_nil, and_true]
    have longer : (bytes ++ [carried.byte]).length = bytes.length + 1 := by
      rw [List.length_append]
      rfl
    unfold handleSubnegotiation TelnetCtx.carriedTo
    rw [show (ctx.collected bytes).iacBuflen = bytes.length from rfl,
      collected_set buflen room, longer]
    dsimp only
    split
    · simp only [TelnetCtx.collected, longer]
    · simp only [TelnetCtx.collected, longer]
  have state : decoded.ctx.iacState = .waitSE := by
    rw [here]
    rfl
  have unquoted : decoded.ctx.iacQuote = false := by
    rw [here]
    rfl
  unfold Carried.encode
  cases quoted : carried.quoted with
  | false =>
      apply stored decoded state
      · rw [here]
        rfl
      · rw [unquoted]
        exact carried.plain quoted
  | true =>
      change ((decoded.feedByte callback cmdIAC).feedByte callback carried.byte).ctx = _ ∧
        ((decoded.feedByte callback cmdIAC).feedByte callback carried.byte).events = _
      rw [Decoded.feedByte_quote callback unquoted]
      apply stored { decoded with ctx := { decoded.ctx with iacQuote := true } } state
      · rw [here]
        rfl
      · exact inside quoted

theorem feed_content (buflen : ctx.iacBuf.length = telnetIACMaxLen) {decoded : Decoded}
    (here : decoded.ctx = ctx.collected bytes) (content : List Carried)
    (inside : ∀ byte ∈ content, byte.quoted = true → byte.byte ≠ cmdSE)
    (room : bytes.length + content.length ≤ telnetIACMaxLen)
    (free : bytes.length < telnetIACMaxLen) :
    (decoded.feed callback (content.flatMap Carried.encode)).ctx =
        ctx.carriedTo (bytes ++ content.map Carried.byte) ∧
      (decoded.feed callback (content.flatMap Carried.encode)).events = decoded.events := by
  induction content generalizing decoded bytes with
  | nil =>
      rw [List.map_nil, List.append_nil]
      refine ⟨?_, rfl⟩
      unfold TelnetCtx.carriedTo
      rw [if_neg (Nat.ne_of_lt free)]
      exact here
  | cons first rest ih =>
      obtain ⟨next, events⟩ := feed_carried callback buflen free here first
        (inside first List.mem_cons_self)
      rw [List.flatMap_cons, Decoded.feed_append, List.map_cons, List.append_cons]
      rw [List.length_cons] at room
      by_cases last : bytes.length + 1 = telnetIACMaxLen
      · have none : rest = [] := List.length_eq_zero_iff.mp (by omega)
        subst none
        rw [List.map_nil, List.append_nil]
        exact ⟨next, events⟩
      · have longer : (bytes ++ [first.byte]).length = bytes.length + 1 := by
          rw [List.length_append]
          rfl
        unfold TelnetCtx.carriedTo at next
        rw [longer, if_neg last] at next
        obtain ⟨final, same⟩ := ih next (fun byte member => inside byte (List.mem_cons_of_mem _ member))
          (by omega) (by omega)
        exact ⟨final, same.trans events⟩

theorem feed_start (top : ctx.iacState = .none)
    (unquoted : ctx.iacQuote = false) :
    let decoded := ({ ctx := ctx } : Decoded).feed callback [cmdIAC, cmdSB]
    decoded.ctx = ctx.collected [] ∧
      decoded.events = clientCodes callback { ctx with iacQuote := true } cmdSB := by
  dsimp only
  have quote : ({ ctx := ctx } : Decoded).feedByte callback cmdIAC = _ :=
    Decoded.feedByte_quote callback unquoted
  have handled : telnetHandler callback { ctx with iacQuote := true } cmdSB = _ :=
    telnetHandler_command callback top rfl
  rw [Decoded.feed_cons, quote, Decoded.feed_cons, Decoded.feed_nil]
  simp only [Decoded.feedByte, handled]
  exact ⟨rfl, List.append_nil _⟩

theorem feed_end {decoded : Decoded} (here : decoded.ctx = ctx.collected bytes) :
    let after := decoded.feed callback [cmdIAC, cmdSE]
    after.ctx = { ctx.collected bytes with iacState := .none } ∧
      after.events = decoded.events ++
        (handleProcessOpt callback { ctx.collected bytes with iacState := .processOpt }).2 := by
  dsimp only
  have quote : decoded.feedByte callback cmdIAC = _ :=
    Decoded.feedByte_quote callback (by rw [here]; rfl)
  have handled : telnetHandler callback { ctx.collected bytes with iacQuote := true } cmdSE = _ :=
    telnetHandler_end callback rfl rfl
  have codes : clientCodes callback { ctx.collected bytes with iacQuote := true } cmdSE = [] := by
    unfold clientCodes
    simp [TelnetCtx.collected]
  rw [Decoded.feed_cons, quote, here, Decoded.feed_cons, Decoded.feed_nil]
  simp only [Decoded.feedByte, handled, codes, List.nil_append]
  exact ⟨rfl, rfl⟩

end Subnegotiation

/-! ### A subnegotiation that fills the buffer -/

/-- The request of an option is only looked at while the option is awaited. -/
def TelnetCtx.Similar (left right : TelnetCtx) : Prop :=
  ∃ request, right = { left with iacOptReq := request } ∧
    (left.iacState = .waitOpt → request = left.iacOptReq)

section Similar

variable (callback : Callback)

theorem TelnetCtx.Similar.telnetHandler {left right : TelnetCtx} (similar : left.Similar right)
    (rests : left.Rests) (c : UInt8) :
    (telnetHandler callback left c).1.Similar (telnetHandler callback right c).1 ∧
      (telnetHandler callback left c).2 = (telnetHandler callback right c).2 := by
  obtain ⟨request, rfl, awaited⟩ := similar
  obtain ⟨state, quoted, before, buf, buflen⟩ := left
  rcases rests with here | here | here
  all_goals dsimp only at here; subst here
  · -- Outside of commands the request is not looked at; a new one replaces both.
    cases quoted with
    | false =>
        unfold Telnet.telnetHandler
        dsimp only
        split
        · exact ⟨⟨request, rfl, nofun⟩, rfl⟩
        · exact ⟨⟨request, rfl, nofun⟩, rfl⟩
    | true =>
        rw [telnetHandler_command callback rfl rfl, telnetHandler_command callback rfl rfl]
        unfold handleCommand
        dsimp only
        split
        · exact ⟨⟨request, rfl, nofun⟩, rfl⟩
        · split
          · exact ⟨⟨c, rfl, fun _ => rfl⟩, rfl⟩
          · split
            · exact ⟨⟨request, rfl, nofun⟩, rfl⟩
            · exact ⟨⟨request, rfl, nofun⟩, rfl⟩
  · rw [awaited rfl]
    exact ⟨⟨_, rfl, fun _ => rfl⟩, rfl⟩
  · cases quoted with
    | false =>
        by_cases isIAC : c = cmdIAC
        · rw [isIAC, telnetHandler_quote callback rfl, telnetHandler_quote callback rfl]
          exact ⟨⟨request, rfl, nofun⟩, rfl⟩
        · rw [@telnetHandler_carried callback ⟨.waitSE, false, before, buf, buflen⟩ c rfl isIAC,
            @telnetHandler_carried callback ⟨.waitSE, false, request, buf, buflen⟩ c rfl isIAC]
          unfold handleSubnegotiation
          dsimp only
          split
          · exact ⟨⟨request, rfl, nofun⟩, rfl⟩
          · exact ⟨⟨request, rfl, nofun⟩, rfl⟩
    | true =>
        by_cases isSE : c = cmdSE
        · rw [isSE, telnetHandler_end callback rfl rfl, telnetHandler_end callback rfl rfl]
          exact ⟨⟨request, rfl, nofun⟩, rfl⟩
        · rw [@telnetHandler_carried callback ⟨.waitSE, true, before, buf, buflen⟩ c rfl isSE,
            @telnetHandler_carried callback ⟨.waitSE, true, request, buf, buflen⟩ c rfl isSE]
          unfold handleSubnegotiation
          dsimp only
          split
          · exact ⟨⟨request, rfl, nofun⟩, rfl⟩
          · exact ⟨⟨request, rfl, nofun⟩, rfl⟩

theorem TelnetCtx.Similar.feed {left right : Decoded} (similar : left.ctx.Similar right.ctx)
    (rests : left.ctx.Rests) (events : left.events = right.events) (bytes : List UInt8) :
    (left.feed callback bytes).events = (right.feed callback bytes).events := by
  induction bytes generalizing left right with
  | nil => exact events
  | cons c rest ih =>
      obtain ⟨next, same⟩ := similar.telnetHandler callback rests c
      rw [Decoded.feed_cons, Decoded.feed_cons]
      apply ih next (telnetHandler_place callback rests c).1
      simp only [Decoded.feedByte, events, same]

end Similar

/-! ### What a subnegotiation is reported as -/

section Reports

variable (callback : Callback) {ctx left right : TelnetCtx}

structure TelnetCtx.Ready (ctx : TelnetCtx) : Prop where
  top : ctx.iacState = .none
  unquoted : ctx.iacQuote = false
  buflen : ctx.iacBuf.length = telnetIACMaxLen

theorem ready_ctxAfter {history : List (List UInt8)}
    (top : (ctxAfter callback history).place = .top) : (ctxAfter callback history).Ready := by
  have agree : Decoded.Agree (telnetCtxInit.processAll callback history) _ :=
    Decoded.Agree.processAll callback ⟨rfl, rfl, rfl⟩ history
  have inside : (telnetCtxInit.feed callback history.flatten).ctx.Inside :=
    Decoded.inside_feed callback TelnetCtx.Inside.init history.flatten
  have rests : (telnetCtxInit.feed callback history.flatten).ctx.Rests :=
    (Decoded.rests_feed callback TelnetCtx.Rests.init history.flatten).1
  rw [← agree.ctx] at inside rests
  unfold ctxAfter at top ⊢
  generalize (telnetCtxInit.processAll callback history).ctx = ctx at top inside rests ⊢
  cases quoted : ctx.iacQuote with
  | false =>
      rcases rests with state | state | state
      · exact ⟨state, quoted, inside.length⟩
      · simp [TelnetCtx.place, state, quoted] at top
      · simp [TelnetCtx.place, state, quoted] at top
  | true => rcases rests with state | state | state <;> simp [TelnetCtx.place, state, quoted] at top

theorem reportsOf_eq (content : Content) :
    reportsOf callback ctx (Item.subnegotiation content).encode =
      (((({ ctx := ctx } : Decoded).feed callback [cmdIAC, cmdSB]).feed callback
        content.encode).feed callback [cmdIAC, cmdSE]).events.filter Event.isReport := by
  have looked : cmdIAC ∈ (Item.subnegotiation content).encode := List.mem_cons_self
  unfold reportsOf Decoded.telnetProcess
  rw [if_neg fun fast => fast.2.2 looked, Item.encode, Decoded.feed_append, Decoded.feed_append]

theorem feed_subnegotiation (ready : ctx.Ready) (content : Content)
    (short : content.carried.length < telnetIACMaxLen) :
    let collected := ctx.collected (content.carried.map Carried.byte)
    let after := (((({ ctx := ctx } : Decoded).feed callback [cmdIAC, cmdSB]).feed callback
      content.encode).feed callback [cmdIAC, cmdSE])
    after.ctx = { collected with iacState := .none } ∧
      after.events = clientCodes callback { iacQuote := true } cmdSB ++
        (handleProcessOpt callback { collected with iacState := .processOpt }).2 := by
  obtain ⟨started, codes⟩ := feed_start callback ready.top ready.unquoted
  obtain ⟨carried, events⟩ := feed_content callback ready.buflen started content.carried
    content.inside (by simpa using Nat.le_of_lt short) (Nat.zero_lt_succ _)
  have more : (content.carried.map Carried.byte).length ≠ telnetIACMaxLen := by
    rw [List.length_map]
    exact Nat.ne_of_lt short
  unfold TelnetCtx.carriedTo at carried
  rw [List.nil_append, if_neg more] at carried
  obtain ⟨after, all⟩ := feed_end callback carried
  refine ⟨after, all.trans ?_⟩
  rw [events, codes]
  unfold clientCodes
  rw [ready.top]

theorem reportsOf_short (ready : ctx.Ready) (content : Content)
    (short : content.carried.length < telnetIACMaxLen) :
    reportsOf callback ctx (Item.subnegotiation content).encode =
      (clientCodes callback { iacQuote := true } cmdSB ++ (handleProcessOpt callback
        { ctx.collected (content.carried.map Carried.byte) with iacState := .processOpt }).2).filter
          Event.isReport := by
  rw [reportsOf_eq, (feed_subnegotiation callback ready content short).2]

theorem reportsOf_full (ready : left.Ready) (other : right.Ready) (content : Content)
    (full : telnetIACMaxLen ≤ content.carried.length) :
    reportsOf callback left (Item.subnegotiation content).encode =
      reportsOf callback right (Item.subnegotiation content).encode := by
  have lengths : (content.carried.take telnetIACMaxLen).length = telnetIACMaxLen := by
    rw [List.length_take]
    exact Nat.min_eq_left full
  have filled : ∀ {ctx : TelnetCtx}, ctx.Ready →
      let decoded := (({ ctx := ctx } : Decoded).feed callback [cmdIAC, cmdSB]).feed callback
        ((content.carried.take telnetIACMaxLen).flatMap Carried.encode)
      (∃ request, decoded.ctx = {
          iacOptReq := request
          iacBuf := (content.carried.take telnetIACMaxLen).map Carried.byte
          iacBuflen := telnetIACMaxLen }) ∧
        decoded.events = clientCodes callback { iacQuote := true } cmdSB := by
    intro ctx ready
    obtain ⟨started, codes⟩ := feed_start callback ready.top ready.unquoted
    obtain ⟨carried, events⟩ := feed_content callback ready.buflen started
      (content.carried.take telnetIACMaxLen)
      (fun byte member => content.inside byte (List.mem_of_mem_take member))
      (by rw [lengths]; exact Nat.le_refl _) (Nat.zero_lt_succ _)
    have stored : ((content.carried.take telnetIACMaxLen).map Carried.byte).length =
        telnetIACMaxLen := by rw [List.length_map, lengths]
    constructor
    · refine ⟨ctx.iacOptReq, carried.trans ?_⟩
      unfold TelnetCtx.carriedTo
      rw [List.nil_append, if_pos stored]
      simp only [TelnetCtx.collected, stored]
      rw [List.drop_eq_nil_of_le (Nat.le_of_eq ready.buflen), List.append_nil]
    · rw [events, codes]
      unfold clientCodes
      rw [ready.top]
  obtain ⟨⟨first, leftCtx⟩, leftEvents⟩ := filled ready
  obtain ⟨⟨second, rightCtx⟩, rightEvents⟩ := filled other
  have whole : content.encode = (content.carried.take telnetIACMaxLen).flatMap Carried.encode ++
      (content.carried.drop telnetIACMaxLen).flatMap Carried.encode := by
    rw [← List.flatMap_append, List.take_append_drop]
    rfl
  rw [reportsOf_eq, reportsOf_eq, whole]
  simp only [Decoded.feed_append]
  congr 1
  have similar := TelnetCtx.Similar.feed callback (by rw [leftCtx, rightCtx]; exact ⟨second, rfl, nofun⟩)
    (by rw [leftCtx]; exact Or.inl rfl) (leftEvents.trans rightEvents.symm)
    ((content.carried.drop telnetIACMaxLen).flatMap Carried.encode ++ [cmdIAC, cmdSE])
  rw [Decoded.feed_append, Decoded.feed_append] at similar
  exact similar

end Reports

/-! ### What is told apart -/

/-- The subnegotiation says all that is reported: nothing is, or it names its option and a
NAWS carries its two sizes.  The code of the client only tells whether the height is 24. -/
def Content.Complete (callback : Callback) (content : Content) : Prop :=
  (callback.termResize = false ∧ callback.updateClientCode = false) ∨
    match content.carried.map Carried.byte with
    | [] => False
    | option :: sizes => option = teloptNAWS → 4 ≤ sizes.length ∨
        (callback.termResize = false ∧ sizes.length = 3 ∧ sizes.getD 2 0 ≠ 0)

section Complete

variable (callback : Callback) {ctx left right : TelnetCtx} {bytes : List UInt8}

def nawsReports (width height : Nat) : List Event :=
  let shape : UInt8 :=
    if width = 80 ∧ height = 24 then 1 else if width = 80 then 2 else if height = 24 then 3 else 4
  (if callback.termResize then [.termResize width height] else []) ++
    (if callback.updateClientCode then
      [.updateClientCode teloptNAWS, .updateClientCode shape, .updateClientCode cmdIAC,
        .updateClientCode cmdSE]
    else [])

def otherReports (carried : List UInt8) : List Event :=
  (if carried.getD 0 0 = teloptTTYPE ∧ callback.ttype ∧ 2 < carried.length then
    [.ttype (carried.drop 2)] else []) ++
    (if callback.updateClientCode then (carried ++ [cmdIAC, cmdSE]).map .updateClientCode else [])

theorem handleProcessOpt_naws (naws : ctx.iacBuf.getD 0 0 = teloptNAWS) :
    (handleProcessOpt callback ctx).2 = nawsReports callback
      ((ctx.iacBuf.getD 1 0).toNat * 256 + (ctx.iacBuf.getD 2 0).toNat)
      ((ctx.iacBuf.getD 3 0).toNat * 256 + (ctx.iacBuf.getD 4 0).toNat) := by
  unfold handleProcessOpt nawsReports
  simp only [naws, if_true]

theorem handleProcessOpt_other (other : (ctx.collected bytes).iacBuf.getD 0 0 ≠ teloptNAWS) :
    (handleProcessOpt callback { ctx.collected bytes with iacState := .processOpt }).2 =
      otherReports callback bytes := by
  have told : (ctx.collected bytes).iacBuf.take (ctx.collected bytes).iacBuflen = bytes :=
    List.take_left
  unfold handleProcessOpt otherReports
  simp only [if_neg other, told]
  change (if (bytes ++ ctx.iacBuf.drop bytes.length).getD 0 0 = teloptTTYPE then
      (if callback.ttype ∧ bytes.length > 2 then _ else _) ++ _ else _) = _
  cases bytes with
  | nil => simp
  | cons option rest =>
      simp only [List.cons_append, List.getD_cons_zero]
      by_cases ttype : option = teloptTTYPE
      · simp only [ttype, if_true, true_and]
      · simp only [ttype, if_false, false_and, List.nil_append]

theorem collected_getD {index : Nat} (stored : index < bytes.length) :
    (ctx.collected bytes).iacBuf.getD index 0 = bytes.getD index 0 := by
  change (bytes ++ ctx.iacBuf.drop bytes.length).getD index 0 = _
  rw [List.getD_append _ _ _ _ stored]

theorem handleProcessOpt_silent (resize : callback.termResize = false)
    (code : callback.updateClientCode = false) :
    (handleProcessOpt callback { ctx.collected bytes with iacState := .processOpt }).2 =
      otherReports callback bytes := by
  by_cases naws : (ctx.collected bytes).iacBuf.getD 0 0 = teloptNAWS
  · refine (@handleProcessOpt_naws callback
      { ctx.collected bytes with iacState := .processOpt } naws).trans ?_
    unfold nawsReports otherReports
    cases bytes with
    | nil => simp [resize, code]
    | cons option rest =>
        have same : option = teloptNAWS := naws
        have other : option ≠ teloptTTYPE := by
          rw [same]
          decide
        simp [resize, code, other]
  · exact handleProcessOpt_other callback naws

theorem collected_getD_kept {index : Nat} (kept : bytes.length ≤ index) :
    (ctx.collected bytes).iacBuf.getD index 0 = ctx.iacBuf.getD index 0 := by
  change (bytes ++ ctx.iacBuf.drop bytes.length).getD index 0 = _
  rw [List.getD_append_right _ _ _ _ kept, List.getD_eq_getElem?_getD, List.getElem?_drop,
    Nat.add_sub_cancel' kept, List.getD_eq_getElem?_getD]

theorem filter_nawsReports (width height : Nat) :
    (nawsReports callback width height).filter Event.isReport = nawsReports callback width height := by
  unfold nawsReports
  dsimp only
  rw [List.filter_append]
  congr 1
  · split <;> rfl
  · split <;> rfl

theorem filter_otherReports (carried : List UInt8) :
    (otherReports callback carried).filter Event.isReport = otherReports callback carried := by
  unfold otherReports
  rw [List.filter_append]
  congr 1
  · split <;> rfl
  · split
    · rw [List.filter_eq_self]
      intro event member
      obtain ⟨code, _carried, rfl⟩ := List.mem_map.mp member
      rfl
    · rfl

theorem nawsReports_ne (first second : Nat) (high : UInt8)
    (seen : callback.termResize = true ∨ (callback.updateClientCode = true ∧ high = 0)) :
    nawsReports callback first (high.toNat * 256 + (0 : UInt8).toNat) ≠
      nawsReports callback second (high.toNat * 256 + (24 : UInt8).toNat) := by
  intro same
  unfold nawsReports at same
  cases resize : callback.termResize with
  | true => simp [resize] at same
  | false =>
      obtain ⟨code, rfl⟩ := seen.resolve_left (by rw [resize]; decide)
      simp only [resize, code, Bool.false_eq_true, if_false, if_true, List.nil_append,
        List.cons.injEq, Event.updateClientCode.injEq, true_and, and_true] at same
      revert same
      by_cases narrow : first = 80 <;> by_cases wide : second = 80 <;> simp [narrow, wide]

theorem nawsReports_tall (silent : callback.termResize = false) (width : Nat) {high : UInt8}
    (tall : high ≠ 0) (first second : UInt8) :
    nawsReports callback width (high.toNat * 256 + first.toNat) =
      nawsReports callback width (high.toNat * 256 + second.toNat) := by
  have other : ∀ low : UInt8, high.toNat * 256 + low.toNat ≠ 24 := by
    intro low equal
    have positive : high.toNat ≠ 0 := fun zero => tall (UInt8.toNat_inj.mp zero)
    omega
  unfold nawsReports
  simp only [silent, other, and_false, if_false, Bool.false_eq_true]

theorem otherReports_ne_nawsReports
    (reported : ¬ (callback.termResize = false ∧ callback.updateClientCode = false))
    (width height : Nat) : otherReports callback [] ≠ nawsReports callback width height := by
  intro same
  have lengths := congrArg List.length same
  unfold otherReports nawsReports at lengths
  cases resize : callback.termResize <;> cases code : callback.updateClientCode <;>
    simp_all

def naws80x24 : Content :=
  ⟨[⟨false, teloptNAWS, nofun⟩, ⟨false, 0, nofun⟩, ⟨false, 80, nofun⟩, ⟨false, 0, nofun⟩,
    ⟨false, 24, nofun⟩], nofun⟩

theorem ctxAfter_subnegotiation (content : Content)
    (short : content.carried.length < telnetIACMaxLen) :
    ctxAfter callback [(Item.subnegotiation content).encode] =
      { ({} : TelnetCtx).collected (content.carried.map Carried.byte) with iacState := .none } := by
  have looked : cmdIAC ∈ (Item.subnegotiation content).encode := List.mem_cons_self
  have ready : ({} : TelnetCtx).Ready := ⟨rfl, rfl, rfl⟩
  rw [← (feed_subnegotiation callback ready content short).1]
  unfold ctxAfter Decoded.processAll
  rw [List.foldl_cons, List.foldl_nil, Decoded.telnetProcess,
    if_neg fun fast => fast.2.2 looked, Item.encode, Decoded.feed_append, Decoded.feed_append]
  rfl

theorem ctxAfter_naws80x24 : ctxAfter callback [(Item.subnegotiation naws80x24).encode] =
    { iacBuf := [teloptNAWS, 0, 80, 0, 24] ++ List.replicate 27 0, iacBuflen := 5 } := by
  rw [ctxAfter_subnegotiation callback naws80x24 (by decide)]
  decide

theorem not_determined {content : Content} (incomplete : ¬ content.Complete callback) :
    ¬ Determined callback content := by
  intro determined
  unfold Content.Complete at incomplete
  rw [not_or] at incomplete
  obtain ⟨reported, missing⟩ := incomplete
  have place : (ctxAfter callback [(Item.subnegotiation naws80x24).encode]).place = .top := by
    rw [ctxAfter_naws80x24]
    rfl
  have same := determined [] [(Item.subnegotiation naws80x24).encode] rfl place
  have short : content.carried.length < telnetIACMaxLen := by
    rw [← @List.length_map _ _ content.carried Carried.byte]
    revert missing
    cases content.carried.map Carried.byte with
    | nil => exact fun _ => Nat.zero_lt_succ _
    | cons option sizes =>
        intro missing
        simp only [Classical.not_imp, not_or] at missing
        have few := missing.2.1
        rw [List.length_cons]
        change _ < 32
        omega
  rw [reportsOf_short callback (ready_ctxAfter callback rfl) content short,
    reportsOf_short callback (ready_ctxAfter callback place) content short, List.filter_append,
    List.filter_append, List.append_cancel_left_eq, ctxAfter_naws80x24] at same
  change (handleProcessOpt callback { ({} : TelnetCtx).collected _ with
    iacState := .processOpt }).2.filter _ = _ at same
  generalize content.carried.map Carried.byte = bytes at missing same
  cases bytes with
  | nil =>
      rw [handleProcessOpt_other callback (by decide), handleProcessOpt_naws callback (by decide),
        filter_otherReports, filter_nawsReports] at same
      exact otherReports_ne_nawsReports callback reported _ _ same
  | cons option sizes =>
      simp only [Classical.not_imp, not_or, not_and] at missing
      obtain ⟨rfl, few, seen⟩ := missing
      rw [handleProcessOpt_naws callback rfl, handleProcessOpt_naws callback rfl,
        filter_nawsReports, filter_nawsReports] at same
      have told : callback.termResize = true ∨ callback.updateClientCode = true := by
        by_contra neither
        simp only [not_or, Bool.not_eq_true] at neither
        exact reported neither
      have size : (teloptNAWS :: sizes).length ≤ 4 := by
        rw [List.length_cons]
        omega
      -- The low byte of the height is the one of the history.
      rw [collected_getD_kept size, collected_getD_kept size] at same
      by_cases three : sizes.length = 3
      · have stored : 3 < (teloptNAWS :: sizes).length := by
          rw [List.length_cons, three]
          decide
        rw [collected_getD stored, collected_getD stored] at same
        refine nawsReports_ne callback _ _ _ ?_ same
        cases resize : callback.termResize with
        | true => exact Or.inl rfl
        | false =>
            have code := told.resolve_left (by rw [resize]; decide)
            exact Or.inr ⟨code, not_not.mp (seen resize three)⟩
      · have kept : (teloptNAWS :: sizes).length ≤ 3 := by
          rw [List.length_cons]
          omega
        rw [collected_getD_kept kept, collected_getD_kept kept] at same
        exact nawsReports_ne callback _ _ 0 (told.imp_right fun code => ⟨code, rfl⟩) same

theorem determined_of_complete {content : Content} (complete : content.Complete callback) :
    Determined callback content := by
  intro left right leftTop rightTop
  have first := ready_ctxAfter callback leftTop
  have second := ready_ctxAfter callback rightTop
  by_cases short : content.carried.length < telnetIACMaxLen
  · rw [reportsOf_short callback first content short, reportsOf_short callback second content short]
    congr 2
    unfold Content.Complete at complete
    generalize content.carried.map Carried.byte = bytes at complete ⊢
    rcases complete with silent | complete
    · rw [handleProcessOpt_silent callback silent.1 silent.2,
        handleProcessOpt_silent callback silent.1 silent.2]
    · cases bytes with
      | nil => exact complete.elim
      | cons option sizes =>
          by_cases naws : option = teloptNAWS
          · subst naws
            have stored : ∀ index, index ≤ sizes.length → ∀ ctx : TelnetCtx,
                (ctx.collected (teloptNAWS :: sizes)).iacBuf.getD index 0 =
                  (teloptNAWS :: sizes).getD index 0 := fun _ bound _ =>
              collected_getD (Nat.lt_succ_of_le bound)
            rw [handleProcessOpt_naws callback rfl, handleProcessOpt_naws callback rfl]
            rcases complete rfl with enough | ⟨silent, three, tall⟩
            · rw [stored 1 (by omega), stored 1 (by omega), stored 2 (by omega),
                stored 2 (by omega), stored 3 (by omega), stored 3 (by omega), stored 4 enough,
                stored 4 enough]
            · rw [stored 1 (by omega), stored 1 (by omega), stored 2 (by omega),
                stored 2 (by omega), stored 3 (by omega), stored 3 (by omega)]
              exact nawsReports_tall callback silent _ tall _ _
          · have other : ∀ ctx : TelnetCtx,
                (ctx.collected (option :: sizes)).iacBuf.getD 0 0 ≠ teloptNAWS := fun _ => naws
            rw [handleProcessOpt_other callback (other _), handleProcessOpt_other callback (other _)]
  · exact reportsOf_full callback first second content (Nat.le_of_not_lt short)

end Complete

/-- The code of the client is computed from the same bytes in every chunking where no chunk
mixes, or could mix, data with a command; a subnegotiation is reported from its own bytes
where it is complete. -/
theorem reports_iff (callback : Callback) (stream : List UInt8) (content : Content) :
    (SameCodes callback stream ↔ callback.updateClientCode = false ∨ cmdIAC ∉ stream ∨
      Place.outside .top stream = []) ∧
    (Determined callback content ↔ content.Complete callback) := by
  refine ⟨sameCodes_iff callback stream, ?_, determined_of_complete callback⟩
  intro determined
  by_contra incomplete
  exact not_determined callback incomplete determined

/-- A byte of data before a command counts in one chunking and not in the other, and a
subnegotiation without a byte is reported as the size the client sent before. -/
theorem reports_depend :
    let callback : Callback := { updateClientCode := true }
    let nop : List UInt8 := [cmdIAC, 241]
    ((telnetCtxInit.processAll callback [[65] ++ nop]).codes = [65, cmdIAC, 241] ∧
      (telnetCtxInit.processAll callback [[65], nop]).codes = [cmdIAC, 241] ∧
      ¬ SameCodes callback ([65] ++ nop)) ∧
    (reportsOf callback (ctxAfter callback [])
        (Item.subnegotiation ⟨[], nofun⟩).encode =
      [cmdIAC, cmdSB, cmdIAC, cmdSE].map .updateClientCode ∧
    reportsOf callback (ctxAfter callback [(Item.subnegotiation naws80x24).encode])
        (Item.subnegotiation ⟨[], nofun⟩).encode =
      [.updateClientCode cmdIAC, .updateClientCode cmdSB, .termResize 80 24] ++
        [teloptNAWS, 1, cmdIAC, cmdSE].map .updateClientCode ∧
    ¬ Determined callback ⟨[], nofun⟩) := by
  refine ⟨⟨by decide, by decide, ?_⟩, by decide, by decide, ?_⟩
  · intro same
    have equal := same [[65] ++ [cmdIAC, 241]] [[65], [cmdIAC, 241]] rfl rfl
    revert equal
    decide
  · intro determined
    have equal := determined [] [(Item.subnegotiation naws80x24).encode] (by decide)
      (by decide)
    revert equal
    decide

end Pttbbs.Common.Telnet
