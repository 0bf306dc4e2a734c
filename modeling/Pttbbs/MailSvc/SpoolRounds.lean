/-
What a round of sending knows at each of its steps.

Of the envelopes that it still has to deal with it knows that they are in the spool; of the
mail in hand, what the relay has been given of it and why its files are removed.  The
rounds that have ended say which mails were due and which were tried.
-/

import Pttbbs.MailSvc.SpoolMails

namespace Pttbbs.MailSvc.Outbound

variable {Id : Type} [LinearOrder Id]

/-! ### The rounds that have ended -/

/-- What was due was tried, or a mail that was tried has failed. -/
def Tries (ended : Ended Id) : Prop :=
  ended.reached = true → ∀ id ∈ ended.due,
    id ∈ ended.tried ∨ ∃ failure, ended.failed = some failure ∧ failure.1 ∈ ended.tried

def Waited (rounds : List (Ended Id)) (tried : List Id) (now : Int) : Prop :=
  ∀ id ∈ tried, ∀ failure, lastFailure rounds id = some failure → Postponed failure now

def RoundsOk : List (Ended Id) → Prop
  | [] => True
  | ended :: earlier => Tries ended ∧ Waited earlier ended.tried ended.now ∧ RoundsOk earlier

theorem RoundsOk.tries {rounds : List (Ended Id)} (ok : RoundsOk rounds) {ended : Ended Id}
    (member : ended ∈ rounds) : Tries ended := by
  induction rounds with
  | nil => cases member
  | cons last earlier ih =>
      rcases List.mem_cons.mp member with rfl | before
      · exact ok.1
      · exact ih ok.2.2 before

theorem RoundsOk.waited {rounds later earlier : List (Ended Id)} {ended : Ended Id}
    (ok : RoundsOk rounds) (split : rounds = later ++ ended :: earlier) :
    Waited earlier ended.tried ended.now := by
  induction later generalizing rounds with
  | nil =>
      subst split
      exact ok.2.1
  | cons last later ih =>
      subst split
      exact ih ok.2.2 rfl

theorem lastFailure_of_none {ended : Ended Id} (none : ended.failed = none)
    (earlier : List (Ended Id)) (id : Id) :
    lastFailure (ended :: earlier) id = lastFailure earlier id := by
  unfold lastFailure
  rw [List.findSome?_cons, none, Option.bind_none]

theorem lastFailure_of_some {ended : Ended Id} {failed : Id} {again : Option Int}
    (some : ended.failed = some (failed, again)) (earlier : List (Ended Id)) (id : Id) :
    lastFailure (ended :: earlier) id =
      if failed = id then .some again else lastFailure earlier id := by
  unfold lastFailure
  rw [List.findSome?_cons, some, Option.bind_some]
  by_cases same : failed = id
  · rw [if_pos same, if_pos same]
  · rw [if_neg same, if_neg same]

/-! ### What a round knows -/

/-- The envelopes that are left are in the spool, and hold all that is due and not tried. -/
structure Lined (state : State Id) (round : Round Id) (envs : List (Envelope Id)) : Prop where
  single : (envs.map Envelope.id).Nodup
  there : ∀ env ∈ envs, state.json.lookup env.id = some env
  due : ∀ id ∈ round.due, id ∈ round.tried ∨
    ∃ env ∈ envs, env.id = id ∧ env.next ≤ round.now

def FileOk (state : State Id) (env : Envelope Id) : DeliverStage → Prop
  | .openEml => True
  | .reset file | .mail file | .rcpt file | .data file | .copy file | .close file false =>
      ∃ mail, state.mails env.id = some mail ∧ file = mail.data
  | .close _ true => False

def Decided (maxAge : Int) (state : State Id) (id : Id) : Prop :=
  ∃ mail, state.mails id = some mail ∧ (state.view id).Done maxAge mail

def RestOk (state : State Id) (round : Round Id) (id : Id) : Reason Id → Prop
  | .sent rest | .refused rest => id ∉ rest.map Envelope.id ∧ Lined state round rest
  | .gaveUp => True

def Unspoiled : WriteStage → Prop
  | .close true | .removeTmp => False
  | _ => True

def StageOk (maxAge : Int) (state : State Id) (round : Round Id) : RoundStage Id → Prop
  | .glob => round.due = [] ∧ round.tried = []
  | .read names envs => round.due = [] ∧ round.tried = [] ∧
      (envs.map Envelope.id ++ names).Nodup ∧ ∀ env ∈ envs, state.json.lookup env.id = some env
  | .dial env rest => Lined state round (env :: rest) ∧ env.next ≤ round.now
  | .deliver env rest stage => Lined state round (env :: rest) ∧ env.id ∈ round.tried ∧
      FileOk state env stage
  | .retry env => env.id ∈ round.tried ∧ state.json.lookup env.id = some env
  | .removeJson env reason => env.id ∈ round.tried ∧
      (∃ old, state.json.lookup env.id = some old) ∧ Decided maxAge state env.id ∧
      RestOk state round env.id reason
  | .removeEml env reason => env.id ∈ round.tried ∧
      (reason = .gaveUp → state.json.lookup env.id = none) ∧ Decided maxAge state env.id ∧
      RestOk state round env.id reason
  | .save env stage => Unspoiled stage ∧ env.id ∈ round.tried ∧ ∃ old mail,
      state.json.lookup env.id = some old ∧ state.mails env.id = some mail ∧
      Carries env env.id mail

structure RoundOk (maxAge : Int) (state : State Id) (round : Round Id) : Prop where
  stage : StageOk maxAge state round round.stage
  waited : Waited state.history.rounds round.tried round.now

/-! ### Steps beside the round -/

section Frame

variable {maxAge : Int} {state state' : State Id} {round : Round Id}

theorem seen_of_json {id : Id} {env : Envelope Id} (there : state.json.lookup id = some env) :
    ¬(state.view id).Unseen := by
  intro unseen
  have absent : state.json.lookup id = none := unseen.1
  rw [absent] at there
  cases there

theorem Decided.seen {id : Id} (decided : Decided maxAge state id) : ¬(state.view id).Unseen := by
  obtain ⟨mail, _, done⟩ := decided
  exact fun unseen => unseen.not_done done

/-- The mails that rounds have had keep their envelopes, and nothing is known of others. -/
structure Beside (state state' : State Id) : Prop where
  json : ∀ id, ¬(state.view id).Unseen → state'.json.lookup id = state.json.lookup id
  mails : ∀ id, ¬(state.view id).Unseen → state'.mails id = state.mails id
  history : state'.history = state.history

theorem Beside.lined (beside : Beside state state') {envs : List (Envelope Id)}
    (lined : Lined state round envs) : Lined state' round envs :=
  { single := lined.single
    there := fun env member => by
      have there := lined.there env member
      rw [beside.json _ (seen_of_json there), there]
    due := lined.due }

theorem Beside.decided (beside : Beside state state') {id : Id}
    (decided : Decided maxAge state id) : Decided maxAge state' id := by
  have seen := decided.seen
  obtain ⟨mail, known, done⟩ := decided
  refine ⟨mail, (beside.mails id seen).trans known, ?_⟩
  unfold View.Done State.view at done ⊢
  rw [beside.history]
  exact done

theorem Beside.restOk (beside : Beside state state') {id : Id} {reason : Reason Id}
    (ok : RestOk state round id reason) : RestOk state' round id reason := by
  cases reason with
  | sent rest => exact ⟨ok.1, beside.lined ok.2⟩
  | refused rest => exact ⟨ok.1, beside.lined ok.2⟩
  | gaveUp => trivial

theorem Beside.fileOk (beside : Beside state state') {env : Envelope Id}
    (there : state.json.lookup env.id = some env) {stage : DeliverStage}
    (ok : FileOk state env stage) : FileOk state' env stage := by
  have same := beside.mails env.id (seen_of_json there)
  cases stage with
  | openEml => trivial
  | close sent failed =>
      cases failed with
      | false =>
          obtain ⟨mail, known, whole⟩ := ok
          exact ⟨mail, same.trans known, whole⟩
      | true => exact ok
  | _ =>
      obtain ⟨mail, known, whole⟩ := ok
      exact ⟨mail, same.trans known, whole⟩

theorem Beside.roundOk (beside : Beside state state') (ok : RoundOk maxAge state round) :
    RoundOk maxAge state' round := by
  obtain ⟨known, waited⟩ := ok
  refine ⟨?_, beside.history ▸ waited⟩
  cases here : round.stage with
  | glob =>
      rw [here] at known
      exact known
  | read names envs =>
      rw [here] at known
      obtain ⟨due, tried, single, there⟩ := known
      refine ⟨due, tried, single, ?_⟩
      intro env member
      rw [beside.json _ (seen_of_json (there env member)), there env member]
  | dial env rest =>
      rw [here] at known
      exact ⟨beside.lined known.1, known.2⟩
  | deliver env rest stage =>
      rw [here] at known
      obtain ⟨lined, tried, file⟩ := known
      exact ⟨beside.lined lined, tried,
        beside.fileOk (lined.there env List.mem_cons_self) file⟩
  | retry env =>
      rw [here] at known
      exact ⟨known.1, (beside.json _ (seen_of_json known.2)).trans known.2⟩
  | removeJson env reason =>
      rw [here] at known
      obtain ⟨tried, ⟨old, there⟩, decided, rest⟩ := known
      exact ⟨tried, ⟨old, (beside.json _ (seen_of_json there)).trans there⟩,
        beside.decided decided, beside.restOk rest⟩
  | removeEml env reason =>
      rw [here] at known
      obtain ⟨tried, gone, decided, rest⟩ := known
      exact ⟨tried, fun gaveUp => (beside.json _ decided.seen).trans (gone gaveUp),
        beside.decided decided, beside.restOk rest⟩
  | save env stage =>
      rw [here] at known
      obtain ⟨unspoiled, tried, old, mail, there, same, carries⟩ := known
      have seen := seen_of_json there
      exact ⟨unspoiled, tried, old, mail, (beside.json _ seen).trans there,
        (beside.mails _ seen).trans same, carries⟩

end Frame

end Pttbbs.MailSvc.Outbound
