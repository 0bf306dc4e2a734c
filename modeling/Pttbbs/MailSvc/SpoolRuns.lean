/-
The promises of the spool, in every run whose steps do not slip.

A delivery returns with what the relay has done, which decides whether the files are removed
or the mail is kept.  Every step of a round and a crash keep what holds of the mails.
-/

import Pttbbs.MailSvc.SpoolSteps

namespace Pttbbs.MailSvc.Outbound

open Pttbbs.Lib

variable {Id : Type} [LinearOrder Id]

section Rounds

variable {maxAge : Int} {state : State Id} {round : Round Id} {id : Id} {mail : Mail}
  {env : Envelope Id} {rest envs : List (Envelope Id)}

/-! ### A delivery -/

/-- The steps of a delivery whose failures are taken for something else: a mail that cannot
be opened, a refusal to begin, and a mail that cannot be read to its end. -/
def CarefulDelivery (eml : Option Bytes) : DeliverStage → Event → Prop
  | .openEml, .io false => eml = none
  | .reset _, .command (.code code) => code < 500
  | .copy _, .copied (.readError _) => False
  | _, _ => True

omit [LinearOrder Id] in
theorem ofReply_goes {next stage : DeliverStage} {reply : Reply}
    (goes : Delivered.ofReply next reply = .goes stage) : reply = .ok ∧ stage = next := by
  cases reply with
  | ok =>
      cases goes
      exact ⟨rfl, rfl⟩
  | code code => cases goes
  | broken => cases goes

omit [LinearOrder Id] in
theorem deliver_goes {stage stage' : DeliverStage} {event : Event}
    (goes : deliver (state.eml env.id) stage event = .goes stage')
    (careful : CarefulDelivery (state.eml env.id) stage event) (ok : FileOk state env stage)
    (stored : ∀ data, state.eml env.id = some data →
      ∃ mail, state.mails env.id = some mail ∧ data = mail.data) :
    FileOk state env stage' ∧ state.history.relay env stage event = state.history := by
  cases stage with
  | openEml =>
      cases event with
      | io opened =>
          cases here : state.eml env.id with
          | none =>
              rw [here] at goes
              cases goes
          | some file =>
              rw [here] at goes
              cases opened with
              | true =>
                  cases goes
                  exact ⟨stored file here, rfl⟩
              | false => cases goes
      | _ => cases goes
  | copy file =>
      cases event with
      | copied copied =>
          cases copied with
          | whole =>
              cases goes
              exact ⟨ok, rfl⟩
          | readError count => exact careful.elim
          | writeError => cases goes
      | _ => cases goes
  | close sent failed =>
      cases event with
      | verdict verdict =>
          cases failed with
          | true => cases goes
          | false => cases verdict <;> cases goes
      | _ => cases failed <;> cases goes
  | _ =>
      cases event with
      | command reply =>
          obtain ⟨rfl, rfl⟩ := ofReply_goes goes
          exact ⟨ok, rfl⟩
      | _ => cases goes

/-- What a delivery returns, with what the relay has done in its last step. -/
inductive Outcome (state : State Id) (env : Envelope Id) : Option DeliverError → History Id → Prop
  | accepted (mail : Mail) (known : state.mails env.id = some mail) :
      Outcome state env none { state.history with
        accepted := ⟨env.id, env.sender, env.rcpt, mail.data⟩ :: state.history.accepted }
  | absent (gone : state.eml env.id = none) :
      Outcome state env (some (.reply 550)) state.history
  | answered (code : Nat) : Outcome state env (some (.reply code)) { state.history with
      answers := (env.id, code) :: state.history.answers }
  | restarts (code : Nat) (passing : code < 500) :
      Outcome state env (some (.reply code)) state.history
  | broken : Outcome state env (some .other) state.history
  | lost (mail : Mail) (known : state.mails env.id = some mail) :
      Outcome state env (some .other) { state.history with
        accepted := ⟨env.id, env.sender, env.rcpt, mail.data⟩ :: state.history.accepted
        lost := env.id :: state.history.lost }

omit [LinearOrder Id] in
theorem deliver_returns {stage : DeliverStage} {event : Event} {err : Option DeliverError}
    (returns : deliver (state.eml env.id) stage event = .returns err)
    (careful : CarefulDelivery (state.eml env.id) stage event) (ok : FileOk state env stage) :
    Outcome state env err (state.history.relay env stage event) := by
  cases stage with
  | openEml =>
      cases event with
      | io opened =>
          have gone : state.eml env.id = none := by
            cases here : state.eml env.id with
            | none => rfl
            | some file =>
                rw [here] at returns careful
                cases opened with
                | true => cases returns
                | false => cases careful
          rw [gone] at returns
          cases returns
          exact .absent gone
      | _ => cases returns
  | reset file =>
      cases event with
      | command reply =>
          cases reply with
          | ok => cases returns
          | code code =>
              cases returns
              exact .restarts code careful
          | broken =>
              cases returns
              exact .broken
      | _ => cases returns
  | copy file =>
      cases event with
      | copied copied =>
          cases copied with
          | whole => cases returns
          | readError count => cases returns
          | writeError =>
              cases returns
              exact .broken
      | _ => cases returns
  | close sent failed =>
      cases failed with
      | true => exact ok.elim
      | false =>
          obtain ⟨mail, known, rfl⟩ := ok
          cases event with
          | verdict verdict =>
              cases verdict with
              | accepted =>
                  cases returns
                  exact .accepted mail known
              | refused code =>
                  cases returns
                  exact .answered code
              | lost accepted =>
                  cases returns
                  cases accepted with
                  | true => exact .lost mail known
                  | false => exact .broken
          | _ => cases returns
  | _ =>
      cases event with
      | command reply =>
          cases reply with
          | ok => cases returns
          | code code =>
              cases returns
              exact .answered code
          | broken =>
              cases returns
              exact .broken
      | _ => cases returns

theorem decided_of_accepted (known : state.mails env.id = some mail) {data : Bytes}
    {lost : List Id} :
    Decided maxAge { state with
      history := { state.history with
        accepted := ⟨env.id, env.sender, env.rcpt, data⟩ :: state.history.accepted
        lost := lost } } env.id := by
  refine ⟨mail, known, Or.inl ?_⟩
  unfold State.view
  dsimp only
  rw [List.filter_cons_of_pos (by simp)]
  exact List.cons_ne_nil _ _

theorem decided_of_answer (known : state.mails env.id = some mail) {code : Nat}
    (refused : 500 ≤ code) :
    Decided maxAge { state with
      history := { state.history with answers := (env.id, code) :: state.history.answers } }
      env.id := by
  refine ⟨mail, known, Or.inr (Or.inl ⟨code, ?_, refused⟩)⟩
  unfold State.view
  dsimp only
  rw [valuesOf_cons_self]
  exact List.mem_cons_self

theorem decided_of_reading (known : state.mails env.id = some mail) {now : Int}
    (old : now - mail.created > maxAge) :
    Decided maxAge { state with
      history := { state.history with readings := (env.id, now) :: state.history.readings } }
      env.id := by
  refine ⟨mail, known, Or.inr (Or.inr ⟨now, ?_, old⟩)⟩
  unfold State.view
  dsimp only
  rw [valuesOf_cons_self]
  exact List.mem_cons_self

theorem Lined.restOk (lined : Lined state round (env :: rest)) (tried : env.id ∈ round.tried)
    (stage : RoundStage Id) :
    env.id ∉ rest.map Envelope.id ∧ Lined state (round.at_ stage) rest :=
  ⟨(List.nodup_cons.mp lined.single).1, (lined.passed (Or.inl tried)).at_ stage⟩

theorem Base.retries (base : Base maxAge state none)
    (waited : Waited state.history.rounds round.tried round.now) (tried : env.id ∈ round.tried)
    (there : state.json.lookup env.id = some env) :
    Sound maxAge (state.move (.goes (round.at_ (.retry env)))) :=
  base.move ⟨⟨tried, there⟩, waited⟩

theorem Base.delivered (base : Base maxAge state none)
    (waited : Waited state.history.rounds round.tried round.now)
    (lined : Lined state round (env :: rest)) (tried : env.id ∈ round.tried)
    {err : Option DeliverError} {history : History Id} (outcome : Outcome state env err history) :
    Sound maxAge ({ state with history }.move (.goes (round.delivered env rest err))) := by
  have there := lined.there env List.mem_cons_self
  cases outcome with
  | accepted mail known =>
      apply (base.accepts there known (Or.inl ⟨rfl, rfl⟩)).move
      have next := lined.restOk tried (.removeJson env (.sent rest))
      exact ⟨⟨tried, ⟨env, there⟩, decided_of_accepted known, next.1, next.2.single, next.2.there,
        next.2.due⟩, waited⟩
  | absent gone =>
      obtain ⟨mail, known, _, files⟩ := (base.mails env.id).spooled env there
      have decided : Decided maxAge state env.id := by
        refine ⟨mail, known, files.resolve_left ?_⟩
        intro stored
        have present : state.eml env.id = some mail.data := stored
        rw [gone] at present
        cases present
      apply base.move
      exact ⟨⟨tried, ⟨env, there⟩, decided, lined.restOk tried _⟩, waited⟩
  | answered code =>
      obtain ⟨mail, known, _⟩ := base.carries there
      have next := base.answers there code
      unfold Round.delivered permanent
      dsimp only
      by_cases refused : code ≥ 500
      · rw [if_pos (decide_eq_true refused)]
        apply next.move
        have left := lined.restOk tried (.removeJson env (.refused rest))
        exact ⟨⟨tried, ⟨env, there⟩, decided_of_answer known refused, left.1, left.2.single,
          left.2.there, left.2.due⟩, waited⟩
      · rw [if_neg (by simpa using refused)]
        exact next.retries waited tried there
  | restarts code passing =>
      unfold Round.delivered permanent
      dsimp only
      rw [if_neg (by simpa using passing)]
      exact base.retries waited tried there
  | broken => exact base.retries waited tried there
  | lost mail known =>
      exact (base.accepts there known (Or.inr rfl)).retries waited tried there

/-! ### A step of a round -/

/-- The steps of a round whose failures hold up later rounds: those of `CarefulDelivery`, and
a failure of saving or of removing an envelope after the mail has failed. -/
def CarefulRound (state : State Id) (round : Round Id) (event : Event) : Prop :=
  match round.stage, event with
  | .deliver env _ stage, event => CarefulDelivery (state.eml env.id) stage event
  | .removeJson _ .gaveUp, .io ok => ok = true
  | .save _ _, .io ok => ok = true
  | _, _ => True

theorem Base.retry_step (base : Base maxAge state none)
    (waited : Waited state.history.rounds round.tried round.now) (tried : env.id ∈ round.tried)
    (there : state.json.lookup env.id = some env) (now : Int) :
    Sound maxAge (state.flush maxAge (round.at_ (.retry env)) (.clock now)) := by
  obtain ⟨mail, known, carries⟩ := base.carries there
  have next := base.reads there now
  unfold State.flush Round.at_
  dsimp only
  split
  · rename_i old
    apply next.move
    have created : env.created = mail.created := carries.2.2.2
    exact ⟨⟨tried, ⟨env, there⟩, decided_of_reading known (created ▸ old), trivial⟩, waited⟩
  · apply next.move
    exact ⟨⟨trivial, tried, env, mail, there, known, carries⟩, waited⟩

theorem RestOk.erase {reason : Reason Id} (ok : RestOk state round id reason)
    (stage : RoundStage Id) :
    RestOk { state with json := state.json.erase id } (round.at_ stage) id reason := by
  have lined : ∀ rest : List (Envelope Id), id ∉ rest.map Envelope.id →
      Lined state round rest →
      Lined { state with json := state.json.erase id } (round.at_ stage) rest := by
    intro rest outside lined
    refine ⟨lined.single, ?_, lined.due⟩
    intro other member
    have different : other.id ≠ id := by
      intro same
      exact outside (same ▸ List.mem_map_of_mem member)
    exact (AList.lookup_erase_ne different).trans (lined.there other member)
  cases reason with
  | sent rest => exact ⟨ok.1, lined rest ok.1 ok.2⟩
  | refused rest => exact ⟨ok.1, lined rest ok.1 ok.2⟩
  | gaveUp => trivial

theorem Base.removeJson_step {reason : Reason Id}
    (base : Base maxAge state (Outbound.leaving (some (round.at_ (.removeJson env reason)))))
    (waited : Waited state.history.rounds round.tried round.now)
    (ok : StageOk maxAge state round (.removeJson env reason)) (removed : Bool)
    (careful : CarefulRound state (round.at_ (.removeJson env reason)) (.io removed)) :
    Sound maxAge (state.flush maxAge (round.at_ (.removeJson env reason)) (.io removed)) := by
  obtain ⟨tried, ⟨old, there⟩, decided, rest⟩ := ok
  have only : ∀ other, other ≠ env.id →
      Outbound.leaving (some (round.at_ (.removeJson env reason))) ≠ some other := by
    intro other different leaves
    cases reason with
    | sent rest => exact different (Option.some.inj leaves).symm
    | refused rest => cases leaves
    | gaveUp => cases leaves
  unfold State.flush Round.at_
  cases removed with
  | true =>
      apply (base.erasesJson decided only).move
      exact ⟨⟨tried, fun _ => AList.lookup_erase env.id state.json, decided, rest.erase _⟩, waited⟩
  | false =>
      cases reason with
      | sent rest' =>
          apply (base.loses there).move
          exact ⟨⟨tried, nofun, decided, rest.1, rest.2.single, rest.2.there, rest.2.due⟩, waited⟩
      | refused rest' =>
          apply base.move
          exact ⟨⟨tried, nofun, decided, rest.1, rest.2.at_ _⟩, waited⟩
      | gaveUp => cases careful

theorem Base.removeEml_step {reason : Reason Id} (base : Base maxAge state none)
    (waited : Waited state.history.rounds round.tried round.now)
    (ok : StageOk maxAge state round (.removeEml env reason)) (removed : Bool) :
    Sound maxAge (state.flush maxAge (round.at_ (.removeEml env reason)) (.io removed)) := by
  obtain ⟨tried, gone, decided, rest⟩ := ok
  have next : Base maxAge { state with
      eml := if removed then Function.update state.eml env.id none else state.eml } none := by
    cases removed with
    | true => exact base.erasesEml decided
    | false => exact base
  unfold State.flush
  cases reason with
  | sent rest' =>
      apply next.onward rfl (visit_leaving _ _ _)
      apply next.visit_ok
      · exact waited
      · exact ⟨rest.2.single, rest.2.there, rest.2.due⟩
  | refused rest' =>
      apply next.onward rfl (visit_leaving _ _ _)
      apply next.visit_ok
      · exact waited
      · exact ⟨rest.2.single, rest.2.there, rest.2.due⟩
  | gaveUp =>
      apply next.onward rfl rfl
      refine ⟨fun _ _ _ => Or.inr ⟨_, rfl, tried⟩, waited, ?_⟩
      intro failure failed
      cases failed
      exact ⟨rfl, gone rfl, decided⟩

omit [LinearOrder Id] in
theorem writeFileSync_unspoiled {stage : WriteStage} (unspoiled : Unspoiled stage) :
    writeFileSync stage true = .renamed ∨
      ∃ stage', writeFileSync stage true = .goes stage' ∧ Unspoiled stage' := by
  cases stage with
  | openTmp => exact Or.inr ⟨_, rfl, trivial⟩
  | write => exact Or.inr ⟨_, rfl, trivial⟩
  | sync => exact Or.inr ⟨_, rfl, trivial⟩
  | close failed =>
      cases failed with
      | true => exact unspoiled.elim
      | false => exact Or.inr ⟨_, rfl, trivial⟩
  | rename => exact Or.inl rfl
  | removeTmp => exact unspoiled.elim

theorem Base.saved (base : Base maxAge state none)
    (waited : Waited state.history.rounds round.tried round.now) (tried : env.id ∈ round.tried)
    {old : Envelope Id} (there : state.json.lookup env.id = some old)
    (known : state.mails env.id = some mail) (carries : Carries env env.id mail) :
    Sound maxAge ({ state with json := state.json.insert env.id env }.move
      (.ends (round.finish true (some (env.id, some env.next))))) := by
  have failed := lastFailure_of_some (rfl : (round.finish true
    (some (env.id, some env.next))).failed = some (env.id, some env.next)) state.history.rounds
  refine ⟨⟨?_, ?_, ?_⟩, fun _ going => by cases going⟩
  · intro id
    have before := base.mails id
    have view : State.view ({ state with json := state.json.insert env.id env }.move
        (.ends (round.finish true (some (env.id, some env.next))))) id =
        { state.view id with
          json := (state.json.insert env.id env).lookup id
          failure := if env.id = id then some (some env.next)
            else lastFailure state.history.rounds id } := by
      rw [← failed id]
      rfl
    rw [view]
    by_cases same : env.id = id
    · subst same
      rw [if_pos rfl, AList.lookup_insert]
      exact before.saves known there carries
    · rw [if_neg same, AList.lookup_insert_ne (Ne.symm same)]
      exact before
  · intro id found present _
    have listed : (state.json.insert env.id env).lookup id = some found := present
    by_cases same : id = env.id
    · subst same
      exact base.spare _ old there nofun
    · rw [AList.lookup_insert_ne same] at listed
      exact base.spare id found listed nofun
  · exact ⟨fun _ _ _ => Or.inr ⟨_, rfl, tried⟩, waited, base.rounds⟩

theorem Base.save_step (base : Base maxAge state none)
    (waited : Waited state.history.rounds round.tried round.now) {stage : WriteStage}
    (ok : StageOk maxAge state round (.save env stage)) :
    Sound maxAge (state.flush maxAge (round.at_ (.save env stage)) (.io true)) := by
  obtain ⟨unspoiled, tried, old, mail, there, known, carries⟩ := ok
  unfold State.flush Round.at_
  dsimp only
  rcases writeFileSync_unspoiled unspoiled with renamed | ⟨stage', goes, still⟩
  · rw [renamed]
    exact base.saved waited tried there known carries
  · rw [goes]
    exact base.move ⟨⟨still, tried, old, mail, there, known, carries⟩, waited⟩

theorem Base.read_step (base : Base maxAge state none)
    (waited : Waited state.history.rounds round.tried round.now) {names : List Id}
    (ok : StageOk maxAge state round (.read names envs)) (opened : Bool) :
    Sound maxAge (state.flush maxAge (round.at_ (.read names envs)) (.io opened)) := by
  obtain ⟨due, tried, single, there⟩ := ok
  cases names with
  | nil =>
      rw [List.append_nil] at single
      unfold State.flush
      exact base.onward rfl (visit_leaving _ _ _) (base.listed_ok waited single there)
  | cons name names =>
      have skip : (envs.map Envelope.id ++ names).Nodup := by
        have apart := List.nodup_append.mp single
        refine List.nodup_append.mpr ⟨apart.1, (List.nodup_cons.mp apart.2.1).2, ?_⟩
        intro id member other later
        exact apart.2.2 id member other (List.mem_cons_of_mem _ later)
      have passed : Sound maxAge (state.move (.goes (round.at_ (.read names envs)))) :=
        base.move ⟨⟨due, tried, skip, there⟩, waited⟩
      unfold State.flush Round.at_
      dsimp only
      split
      · rename_i env found
        obtain ⟨mail, known, carries, _⟩ := (base.mails name).spooled env found
        have same : env.id = name := carries.1
        rw [if_pos same]
        apply base.move
        refine ⟨⟨due, tried, ?_, ?_⟩, waited⟩
        · rw [List.map_append, List.map_singleton, same, List.append_assoc]
          exact single
        · intro other member
          rcases List.mem_append.mp member with before | last
          · exact there other before
          · rw [List.mem_singleton.mp last, same]
            exact found
      · exact passed

theorem Sound.flush_step (sound : Sound maxAge state) (here : state.round = some round)
    {event : Event} (careful : CarefulRound state round event) :
    Sound maxAge (state.flush maxAge round event) := by
  obtain ⟨stageOk, waited⟩ := sound.round round here
  have base := sound.base
  rw [here] at base
  obtain ⟨now, due, tried, stage⟩ := round
  cases stage with
  | glob =>
      cases event with
      | io ok =>
          unfold State.flush
          apply base.move
          refine ⟨⟨stageOk.1, stageOk.2, ?_, nofun⟩, waited⟩
          exact (List.perm_insertionSort _ _).nodup_iff.mpr state.json.keys_nodup
      | _ => exact sound
  | read names envs =>
      cases event with
      | io ok => exact base.read_step waited stageOk ok
      | _ => cases names <;> exact sound
  | dial env rest =>
      cases event with
      | io ok =>
          unfold State.flush
          cases ok with
          | true =>
              apply base.move
              exact base.begin_ok waited stageOk.1 stageOk.2
          | false =>
              apply base.onward rfl rfl
              exact ⟨nofun, waited, nofun⟩
      | _ => exact sound
  | deliver env rest stage =>
      obtain ⟨lined, member, file⟩ := stageOk
      unfold State.flush
      dsimp only
      split
      · exact sound
      · rename_i stage' goes
        obtain ⟨file', same⟩ := deliver_goes goes careful file (base.mails env.id).stored
        rw [same]
        exact base.move ⟨⟨⟨lined.single, lined.there, lined.due⟩, member, file'⟩, waited⟩
      · rename_i err returns
        exact base.delivered waited lined member (deliver_returns returns careful file)
  | retry env =>
      cases event with
      | clock now => exact base.retry_step waited stageOk.1 stageOk.2 now
      | _ => exact sound
  | removeJson env reason =>
      cases event with
      | io ok => exact base.removeJson_step waited stageOk ok careful
      | _ => exact sound
  | removeEml env reason =>
      cases event with
      | io ok => exact base.removeEml_step waited stageOk ok
      | _ => exact sound
  | save env stage =>
      cases event with
      | io ok =>
          have written : ok = true := careful
          subst written
          exact base.save_step waited stageOk
      | _ => exact sound

theorem Sound.crash (sound : Sound maxAge state) : Sound maxAge state.crash := by
  have base := sound.base
  have history : state.crash.history = state.history ∧ Outbound.leaving state.round = none ∨
      ∃ id, state.crash.history = { state.history with lost := id :: state.history.lost } ∧
        Outbound.leaving state.round = some id := by
    unfold State.crash Outbound.leaving
    cases state.round with
    | none => exact Or.inl ⟨rfl, rfl⟩
    | some round =>
        obtain ⟨now, due, tried, stage⟩ := round
        cases stage with
        | removeJson env reason =>
            cases reason with
            | sent rest => exact Or.inr ⟨env.id, rfl, rfl⟩
            | refused rest => exact Or.inl ⟨rfl, rfl⟩
            | gaveUp => exact Or.inl ⟨rfl, rfl⟩
        | _ => exact Or.inl ⟨rfl, rfl⟩
  have view : ∀ id, ∃ lost, (state.view id).lost ≤ lost ∧
      (Outbound.leaving state.round = some id → (state.view id).lost + 1 ≤ lost) ∧
      state.crash.view id = { state.view id with enqueue := none, lost := lost } := by
    intro id
    have plain : state.crash.view id = { state.view id with
        enqueue := none
        accepted := state.crash.history.accepted.filter fun acceptance => acceptance.id = id
        answers := valuesOf id state.crash.history.answers
        readings := valuesOf id state.crash.history.readings
        lost := state.crash.history.lost.count id
        failure := lastFailure state.crash.history.rounds id } := rfl
    refine ⟨state.crash.history.lost.count id, ?_⟩
    rcases history with ⟨same, free⟩ | ⟨other, more, leaves⟩
    · rw [plain, same, free]
      exact ⟨Nat.le_refl _, nofun, rfl⟩
    · rw [plain, more, leaves]
      refine ⟨List.count_le_count_cons, ?_, rfl⟩
      intro here
      cases here
      rw [List.count_cons_self]
      exact Nat.le_refl _
  have rounds : state.crash.history.rounds = state.history.rounds := by
    rcases history with ⟨same, _⟩ | ⟨other, more, _⟩
    · rw [same]
    · rw [more]
  refine ⟨⟨?_, ?_, rounds ▸ base.rounds⟩, fun _ going => by cases going⟩
  · intro id
    obtain ⟨lost, more, _, same⟩ := view id
    rw [same]
    exact (base.mails id).crashes more
  · intro id env there _
    obtain ⟨lost, more, removal, same⟩ := view id
    rw [same]
    show (state.view id).accepted.length ≤ lost
    by_cases leaves : Outbound.leaving state.round = some id
    · exact Nat.le_trans (base.mails id).once (removal leaves)
    · exact Nat.le_trans (base.spare id env there leaves) more

/-! ### Runs -/

def Careful (state : State Id) : Action Id → Prop
  | .move event => ∀ round ∈ state.round, CarefulRound state round event
  | _ => True

instance (eml : Option Bytes) (stage : DeliverStage) (event : Event) :
    Decidable (CarefulDelivery eml stage event) := by
  unfold CarefulDelivery
  split <;> infer_instance

instance (state : State Id) (round : Round Id) (event : Event) :
    Decidable (CarefulRound state round event) := by
  unfold CarefulRound
  split <;> infer_instance

instance (state : State Id) (action : Action Id) : Decidable (Careful state action) := by
  unfold Careful
  split <;> infer_instance

theorem Sound.step (sound : Sound maxAge state) {action : Action Id}
    (careful : Careful state action) : Sound maxAge (step maxAge state action) := by
  unfold Outbound.step
  cases action with
  | enqueue id mail =>
      dsimp only
      split
      · exact sound
      · rename_i fresh
        exact sound.enqueue_begins fresh mail
  | work id ok =>
      dsimp only
      split
      · rename_i known there
        exact sound.enqueue_step ok there known
      · exact sound
  | flush now =>
      dsimp only
      split
      · exact sound
      · rename_i idle
        have base := sound.base
        rw [idle] at base
        refine ⟨⟨base.mails, base.spare, base.rounds⟩, ?_⟩
        intro round begun
        cases begun
        exact ⟨⟨rfl, rfl⟩, nofun⟩
  | move event =>
      dsimp only
      split
      · rename_i round here
        exact sound.flush_step here (careful round here)
      · exact sound
  | crash => exact sound.crash

theorem sound_start : Sound maxAge (start : State Id) := by
  refine ⟨⟨?_, fun _ _ there => (by cases there), trivial⟩,
    fun _ going => by cases going⟩
  intro id
  exact
    { stored := fun _ there => by cases there
      spooled := fun _ there => by cases there
      postponed := fun _ _ there => by cases there
      composing := fun _ there => by cases there
      kept := fun returned => by cases returned
      unsent := fun returned => by cases returned
      fresh := fun _ => ⟨⟨rfl, rfl, rfl, rfl, rfl⟩, rfl, rfl⟩
      whole := List.forall_mem_nil _
      once := Nat.zero_le _ }

theorem mem_view {acceptance : Acceptance Id} (member : acceptance ∈ state.history.accepted) :
    acceptance ∈ (state.view acceptance.id).accepted :=
  List.mem_filter.mpr ⟨member, by simp⟩

theorem done_of_view {id : Id} {mail : Mail} (done : (state.view id).Done maxAge mail) :
    Done maxAge state.history id mail := by
  rcases done with some | ⟨code, member, refused⟩ | ⟨now, member, old⟩
  · obtain ⟨acceptance, member⟩ := List.exists_mem_of_ne_nil _ some
    obtain ⟨accepted, same⟩ := List.mem_filter.mp member
    exact Or.inl ⟨acceptance, accepted, of_decide_eq_true same⟩
  · exact Or.inr (Or.inl ⟨code, refused, mem_valuesOf.mp member⟩)
  · exact Or.inr (Or.inr ⟨now, mem_valuesOf.mp member, old⟩)

theorem Sound.promises (sound : Sound maxAge state) : Promises maxAge state := by
  have base := sound.base
  refine
    { kept := ?_
      whole := fun acceptance member =>
        (base.mails acceptance.id).whole acceptance (mem_view member)
      once := ?_
      unsent := ?_
      tries := fun ended member => base.rounds.tries member
      waits := fun later ended earlier split => base.rounds.waited split }
  · intro id returned
    obtain ⟨mail, known, files⟩ := (base.mails id).kept returned
    refine ⟨mail, known, ?_⟩
    rcases files with json | done
    · obtain ⟨env, there⟩ := Option.ne_none_iff_exists'.mp json
      obtain ⟨other, same, _, stored⟩ := (base.mails id).spooled env there
      rw [known] at same
      cases same
      rcases stored with eml | done
      · exact Or.inl ⟨⟨env, there⟩, eml⟩
      · exact Or.inr (done_of_view done)
    · exact Or.inr (done_of_view done)
  · intro id
    rw [List.countP_eq_length_filter]
    exact (base.mails id).once
  · intro id returned acceptance member same
    have unseen := (base.mails id).unsent returned
    have here := mem_view member
    rw [same, unseen.2.2.1] at here
    cases here

end Rounds

def spooling (id : Nat) (mail : Mail) : List (Action Nat) :=
  .enqueue id mail :: List.replicate 11 (.work id true)

def sampleMail : Mail := ⟨"Tester.bbs@bbs", "a@example.com", [1, 2, 3], 0⟩

def postponedRun : List (Action Nat) :=
  spooling 1 sampleMail ++ spooling 2 sampleMail ++
    .flush 1 :: List.replicate 6 (.move (.io true) : Action Nat) ++
    ([.move (.command .ok), .move (.command .ok), .move (.command (.code 451)),
      .move (.clock 2)] : List (Action Nat)) ++
    List.replicate 5 (.move (.io true) : Action Nat) ++
    .flush 3 :: List.replicate 6 (.move (.io true) : Action Nat) ++
    List.replicate 4 (.move (.command .ok) : Action Nat) ++
    [.move (.copied .whole), .move (.verdict .accepted), .move (.io true), .move (.io true)]

def shortRun : List (Action Nat) :=
  spooling 1 sampleMail ++
    .flush 1 :: List.replicate 5 (.move (.io true) : Action Nat) ++
    List.replicate 4 (.move (.command .ok) : Action Nat) ++
    [.move (.copied (.readError 1)), .move (.verdict .accepted)]

end Pttbbs.MailSvc.Outbound
