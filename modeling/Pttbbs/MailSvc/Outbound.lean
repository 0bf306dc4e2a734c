/-
The spool of outgoing mails.

A mail is two files, the mail itself and its envelope, and the envelope is written last.
A round of sending reads the envelopes, gives the mails that are due to the relay one after
the other, and removes or keeps each by what the relay has answered.  Every file operation
and every command to the relay is one step here, with its outcome in the event, so that
calls of `enqueue` and a round can take their steps in any order and stop anywhere.
Temporary files have no entry: nothing reads them, and what is renamed is what was written.
-/

import Mathlib.Algebra.Group.Int.Defs
import Mathlib.Data.List.AList
import Mathlib.Data.List.Sort
import Pttbbs.Lib.Runs

namespace Pttbbs.MailSvc.Outbound

abbrev Bytes := List UInt8

def minBackoff : Int := 60000000000

def maxBackoff : Int := 3600000000000

/-- The spooled state of a mail; the mail itself is in a file of its own. -/
structure Envelope (Id : Type) where
  id : Id
  sender : String
  rcpt : String
  created : Int
  next : Int
  attempts : Nat
deriving DecidableEq

structure Mail where
  sender : String
  rcpt : String
  data : Bytes
  created : Int
deriving DecidableEq

/-! ### Writing a file -/

inductive WriteStage
  | openTmp
  | write
  | sync
  | close (failed : Bool)
  | rename
  | removeTmp

inductive Written
  | goes (stage : WriteStage)
  | renamed
  | failed

def writeFileSync : WriteStage → Bool → Written
  | .openTmp, true => .goes .write
  | .openTmp, false => .failed
  | .write, true => .goes .sync
  | .write, false => .goes (.close true)
  | .sync, ok => .goes (.close !ok)
  | .close failed, ok => .goes (if !failed && ok then .rename else .removeTmp)
  | .rename, true => .renamed
  | .rename, false => .goes .removeTmp
  | .removeTmp, _ => .failed

/-! ### The relay -/

inductive Reply
  | ok
  | code (code : Nat)
  | broken

/-- The reply to the end of a mail; a relay may have accepted a mail whose reply is lost. -/
inductive Verdict
  | accepted
  | refused (code : Nat)
  | lost (accepted : Bool)

inductive Copied
  | whole
  | readError (count : Nat)
  | writeError

inductive Event
  | io (ok : Bool)
  | clock (now : Int)
  | command (reply : Reply)
  | copied (copied : Copied)
  | verdict (verdict : Verdict)

inductive DeliverError
  | reply (code : Nat)
  | other

def permanent : DeliverError → Bool
  | .reply code => decide (code ≥ 500)
  | .other => false

inductive DeliverStage
  | openEml
  | reset (file : Bytes)
  | mail (file : Bytes)
  | rcpt (file : Bytes)
  | data (file : Bytes)
  | copy (file : Bytes)
  | close (sent : Bytes) (readFailed : Bool)

/-- Where a delivery stands after a step; an event that is not the outcome of the step that
it is at leaves it there. -/
inductive Delivered
  | waits
  | goes (stage : DeliverStage)
  | returns (err : Option DeliverError)

def Delivered.ofReply (next : DeliverStage) : Reply → Delivered
  | .ok => .goes next
  | .code code => .returns (some (.reply code))
  | .broken => .returns (some .other)

def deliver (eml : Option Bytes) : DeliverStage → Event → Delivered
  | .openEml, .io ok =>
      match eml, ok with
      | some file, true => .goes (.reset file)
      -- any error of opening the file counts as a refusal for good
      | _, _ => .returns (some (.reply 550))
  | .reset file, .command reply => .ofReply (.mail file) reply
  | .mail file, .command reply => .ofReply (.rcpt file) reply
  | .rcpt file, .command reply => .ofReply (.data file) reply
  | .data file, .command reply => .ofReply (.copy file) reply
  | .copy file, .copied .whole => .goes (.close file false)
  -- the writer is closed here too, which ends the mail
  | .copy file, .copied (.readError count) => .goes (.close (file.take count) true)
  | .copy _, .copied .writeError => .returns (some .other)
  | .close _ true, .verdict _ => .returns (some .other)
  | .close _ false, .verdict .accepted => .returns none
  | .close _ false, .verdict (.refused code) => .returns (some (.reply code))
  | .close _ false, .verdict (.lost _) => .returns (some .other)
  | _, _ => .waits

/-! ### A round of sending -/

section Rounds

variable {Id : Type}

inductive Reason (Id : Type)
  | sent (rest : List (Envelope Id))
  | refused (rest : List (Envelope Id))
  | gaveUp

inductive RoundStage (Id : Type)
  | glob
  | read (names : List Id) (envs : List (Envelope Id))
  | dial (env : Envelope Id) (rest : List (Envelope Id))
  | deliver (env : Envelope Id) (rest : List (Envelope Id)) (stage : DeliverStage)
  | retry (env : Envelope Id)
  | removeJson (env : Envelope Id) (reason : Reason Id)
  | removeEml (env : Envelope Id) (reason : Reason Id)
  | save (env : Envelope Id) (stage : WriteStage)

/-- A call of `flush`: the time it read first, the mails that it found due and those that it
has begun to deliver. -/
structure Round (Id : Type) where
  now : Int
  due : List Id
  tried : List Id
  stage : RoundStage Id

/-- A round that has ended: whether it ended by itself or by a failure of a mail, and not by
one of the connection, and the mail that failed with the time that it is due again. -/
structure Ended (Id : Type) where
  now : Int
  due : List Id
  tried : List Id
  reached : Bool
  failed : Option (Id × Option Int)

structure Acceptance (Id : Type) where
  id : Id
  sender : String
  rcpt : String
  data : Bytes
deriving DecidableEq

structure History (Id : Type) where
  /-- every mail that the relay has accepted -/
  accepted : List (Acceptance Id)
  /-- every refusal of a mail by the relay -/
  answers : List (Id × Nat)
  /-- every time at which `retry` has compared the age of a mail -/
  readings : List (Id × Int)
  /-- every accepting reply and every removal of an accepted mail's envelope that was lost -/
  lost : List Id
  /-- the rounds, the last one first -/
  rounds : List (Ended Id)

inductive EnqueueStage
  | eml (stage : WriteStage)
  | json (stage : WriteStage)
  | removeEml
  | finish

/-- The spool, the calls in progress, and what callers and the relay have seen. -/
structure State (Id : Type) where
  eml : Id → Option Bytes
  json : AList fun _ : Id => Envelope Id
  enqueues : Id → Option EnqueueStage
  round : Option (Round Id)
  mails : Id → Option Mail
  returned : Id → Option Bool
  history : History Id

inductive Moved (Id : Type)
  | goes (round : Round Id)
  | ends (ended : Ended Id)

namespace Round

def at_ (round : Round Id) (stage : RoundStage Id) : Round Id := { round with stage }

def finish (round : Round Id) (reached : Bool) (failed : Option (Id × Option Int)) : Ended Id :=
  ⟨round.now, round.due, round.tried, reached, failed⟩

def begin (round : Round Id) (env : Envelope Id) (rest : List (Envelope Id)) : Round Id :=
  { round with tried := env.id :: round.tried, stage := .deliver env rest .openEml }

def visit (round : Round Id) (connected : Bool) : List (Envelope Id) → Moved Id
  | [] => .ends (round.finish true none)
  | env :: rest =>
      if env.next > round.now then round.visit connected rest
      else if connected then .goes (round.begin env rest)
      else .goes (round.at_ (.dial env rest))

def listed (round : Round Id) (envs : List (Envelope Id)) : Moved Id :=
  let due := envs.filter fun env : Envelope Id => env.next ≤ round.now
  { round with due := due.map Envelope.id }.visit false envs

def removed (round : Round Id) (env : Envelope Id) : Reason Id → Moved Id
  | .sent rest => round.visit true rest
  | .refused rest => round.visit true rest
  | .gaveUp => .ends (round.finish true (some (env.id, none)))

def delivered (round : Round Id) (env : Envelope Id) (rest : List (Envelope Id)) :
    Option DeliverError → Round Id
  | none => round.at_ (.removeJson env (.sent rest))
  | some err =>
      if permanent err then round.at_ (.removeJson env (.refused rest))
      else round.at_ (.retry env)

end Round

def backoff (attempts : Nat) : Int :=
  min (minBackoff * 2 ^ min (attempts - 1) 6) maxBackoff

def History.relay (history : History Id) (env : Envelope Id) :
    DeliverStage → Event → History Id
  | .mail _, .command (.code code) | .rcpt _, .command (.code code)
  | .data _, .command (.code code) | .close _ _, .verdict (.refused code) =>
      { history with answers := (env.id, code) :: history.answers }
  | .close sent _, .verdict .accepted =>
      { history with accepted := ⟨env.id, env.sender, env.rcpt, sent⟩ :: history.accepted }
  | .close sent _, .verdict (.lost true) =>
      { history with
        accepted := ⟨env.id, env.sender, env.rcpt, sent⟩ :: history.accepted
        lost := env.id :: history.lost }
  | _, _ => history

def History.lose (history : History Id) (env : Envelope Id) : Reason Id → History Id
  | .sent _ => { history with lost := env.id :: history.lost }
  | _ => history

namespace State

def move (state : State Id) : Moved Id → State Id
  | .goes round => { state with round := some round }
  | .ends ended =>
      { state with
        round := none
        history := { state.history with rounds := ended :: state.history.rounds } }

variable [LinearOrder Id]

def flush (maxAge : Int) (state : State Id) (round : Round Id) (event : Event) : State Id :=
  match round.stage, event with
  | .glob, .io _ =>
      state.move (.goes (round.at_ (.read (state.json.keys.insertionSort (· ≤ ·)) [])))
  | .read [] envs, .io _ => state.move (round.listed envs)
  | .read (name :: names) envs, .io ok =>
      match state.json.lookup name, ok with
      | some env, true =>
          if env.id = name then state.move (.goes (round.at_ (.read names (envs ++ [env]))))
          else
            { state with json := state.json.erase name }.move (.goes (round.at_ (.read names envs)))
      | _, _ => state.move (.goes (round.at_ (.read names envs)))
  | .dial env rest, .io ok =>
      state.move (if ok then .goes (round.begin env rest) else .ends (round.finish false none))
  | .deliver env rest stage, event =>
      match deliver (state.eml env.id) stage event with
      | .waits => state
      | .goes stage' =>
          { state with history := state.history.relay env stage event }.move
            (.goes (round.at_ (.deliver env rest stage')))
      | .returns err =>
          { state with history := state.history.relay env stage event }.move
            (.goes (round.delivered env rest err))
  | .retry env, .clock now =>
      let state :=
        { state with
          history := { state.history with readings := (env.id, now) :: state.history.readings } }
      let env := { env with attempts := env.attempts + 1 }
      if now - env.created > maxAge then state.move (.goes (round.at_ (.removeJson env .gaveUp)))
      else
        state.move (.goes (round.at_
          (.save { env with next := now + backoff env.attempts } .openTmp)))
  | .removeJson env reason, .io true =>
      { state with json := state.json.erase env.id }.move
        (.goes (round.at_ (.removeEml env reason)))
  | .removeJson env reason, .io false =>
      { state with history := state.history.lose env reason }.move
        (.goes (round.at_ (.removeEml env reason)))
  | .removeEml env reason, .io ok =>
      { state with
        eml := if ok then Function.update state.eml env.id none else state.eml }.move
        (round.removed env reason)
  | .save env stage, .io ok =>
      match writeFileSync stage ok with
      | .goes stage' => state.move (.goes (round.at_ (.save env stage')))
      | .renamed =>
          { state with json := state.json.insert env.id env }.move
            (.ends (round.finish true (some (env.id, some env.next))))
      | .failed => state.move (.ends (round.finish true (some (env.id, some env.next))))
  | _, _ => state

/-! ### Spooling a mail -/

def envelopeOf (id : Id) (mail : Mail) : Envelope Id :=
  ⟨id, mail.sender, mail.rcpt, mail.created, mail.created, 0⟩

def goOn (state : State Id) (id : Id) (stage : EnqueueStage) : State Id :=
  { state with enqueues := Function.update state.enqueues id (some stage) }

def giveBack (state : State Id) (id : Id) (ok : Bool) : State Id :=
  { state with
    enqueues := Function.update state.enqueues id none
    returned := Function.update state.returned id (some ok) }

/-- One step of `enqueue` after it has chosen the name of the mail. -/
def enqueue (state : State Id) (id : Id) (mail : Mail) (ok : Bool) : EnqueueStage → State Id
  | .eml stage =>
      match writeFileSync stage ok with
      | .goes stage' => state.goOn id (.eml stage')
      | .renamed =>
          { state with eml := Function.update state.eml id (some mail.data) }.goOn id
            (.json .openTmp)
      | .failed => state.giveBack id false
  | .json stage =>
      match writeFileSync stage ok with
      | .goes stage' => state.goOn id (.json stage')
      | .renamed =>
          { state with json := state.json.insert id (envelopeOf id mail) }.goOn id .finish
      | .failed => state.goOn id .removeEml
  | .removeEml =>
      { state with
        eml := if ok then Function.update state.eml id none else state.eml }.giveBack id false
  | .finish => state.giveBack id true

/-- The process ends; an envelope that was about to be removed stays. -/
def crash (state : State Id) : State Id :=
  { state with
    enqueues := fun _ => none
    round := none
    history :=
      match state.round.map Round.stage with
      | some (.removeJson env reason) => state.history.lose env reason
      | _ => state.history }

end State

/-! ### Runs -/

inductive Action (Id : Type)
  | enqueue (id : Id) (mail : Mail)
  | work (id : Id) (ok : Bool)
  | flush (now : Int)
  | move (event : Event)
  | crash

variable [LinearOrder Id]

/-- The names that `newID` gives are never given twice, and rounds take turns. -/
def step (maxAge : Int) (state : State Id) : Action Id → State Id
  | .enqueue id mail =>
      match state.mails id with
      | some _ => state
      | none =>
          { state with mails := Function.update state.mails id (some mail) }.goOn id (.eml .openTmp)
  | .work id ok =>
      match state.mails id, state.enqueues id with
      | some mail, some stage => state.enqueue id mail ok stage
      | _, _ => state
  | .flush now =>
      match state.round with
      | some _ => state
      | none => { state with round := some ⟨now, [], [], .glob⟩ }
  | .move event =>
      match state.round with
      | some round => state.flush maxAge round event
      | none => state
  | .crash => state.crash

def start : State Id :=
  { eml := fun _ => none
    json := ∅
    enqueues := fun _ => none
    round := none
    mails := fun _ => none
    returned := fun _ => none
    history := ⟨[], [], [], [], []⟩ }

/-! ### What the spool promises -/

/-- The relay has accepted or refused the mail, or it was too old when its age was compared. -/
def Done (maxAge : Int) (history : History Id) (id : Id) (mail : Mail) : Prop :=
  (∃ acceptance ∈ history.accepted, acceptance.id = id) ∨
    (∃ code, 500 ≤ code ∧ (id, code) ∈ history.answers) ∨
    ∃ now, (id, now) ∈ history.readings ∧ now - mail.created > maxAge

/-- The last failure of a mail that did not end its trying, with the time it is due again. -/
def lastFailure (rounds : List (Ended Id)) (id : Id) : Option (Option Int) :=
  rounds.findSome? fun ended =>
    ended.failed.bind fun failure => if failure.1 = id then some failure.2 else none

structure Promises (maxAge : Int) (state : State Id) : Prop where
  /-- no mail is lost -/
  kept : ∀ id, state.returned id = some true → ∃ mail, state.mails id = some mail ∧
    ((∃ env, state.json.lookup id = some env) ∧ state.eml id = some mail.data ∨
      Done maxAge state.history id mail)
  /-- the relay only accepts whole mails -/
  whole : ∀ acceptance ∈ state.history.accepted, ∃ mail, state.mails acceptance.id = some mail ∧
    acceptance.sender = mail.sender ∧ acceptance.rcpt = mail.rcpt ∧ acceptance.data = mail.data
  /-- a mail is accepted again only after something was lost -/
  once : ∀ id, state.history.accepted.countP (fun acceptance => acceptance.id = id) ≤
    state.history.lost.count id + 1
  /-- a mail that was not spooled is not sent -/
  unsent : ∀ id, state.returned id = some false →
    ∀ acceptance ∈ state.history.accepted, acceptance.id ≠ id
  /-- a round that reaches the relay tries what is due, up to one mail that fails -/
  tries : ∀ ended ∈ state.history.rounds, ended.reached = true → ∀ id ∈ ended.due,
    id ∈ ended.tried ∨ ∃ failure, ended.failed = some failure ∧ failure.1 ∈ ended.tried
  /-- and a mail that has failed is not tried before it is due again -/
  waits : ∀ later ended earlier, state.history.rounds = later ++ ended :: earlier →
    ∀ id ∈ ended.tried, ∀ failure, lastFailure earlier id = some failure →
      ∃ next, failure = some next ∧ next ≤ ended.now

end Rounds

end Pttbbs.MailSvc.Outbound
