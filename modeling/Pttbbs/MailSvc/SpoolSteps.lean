/-
What a step of the spool keeps.

Each step changes the view of one mail at most, so what holds of every mail is kept by
looking at that one: when a mail is spooled, when the round goes on to another envelope,
and when something is written down about the mail in hand.
-/

import Pttbbs.MailSvc.SpoolRounds

namespace Pttbbs.MailSvc.Outbound

variable {Id : Type} [LinearOrder Id]

/-- The mail that was accepted and whose envelope is about to be removed. -/
def leaving : Option (Round Id) → Option Id
  | some ⟨_, _, _, .removeJson env (.sent _)⟩ => some env.id
  | _ => none

def Moved.leaving : Moved Id → Option Id
  | .goes round => Outbound.leaving (some round)
  | .ends _ => none

structure Base (maxAge : Int) (state : State Id) (leaving : Option Id) : Prop where
  mails : ∀ id, MailOk maxAge id (state.view id)
  spare : ∀ id env, state.json.lookup id = some env → leaving ≠ some id →
    (state.view id).accepted.length ≤ (state.view id).lost
  rounds : RoundsOk state.history.rounds

structure Sound (maxAge : Int) (state : State Id) : Prop where
  base : Base maxAge state (leaving state.round)
  round : ∀ round, state.round = some round → RoundOk maxAge state round

/-- What is left to show when a round goes on or ends; a mail that fails without a next time
is given up. -/
def MovedOk (maxAge : Int) (state : State Id) : Moved Id → Prop
  | .goes round => RoundOk maxAge state round
  | .ends ended => Tries ended ∧ Waited state.history.rounds ended.tried ended.now ∧
      ∀ failure, ended.failed = some failure → failure.2 = none ∧
        state.json.lookup failure.1 = none ∧ Decided maxAge state failure.1

section Steps

variable {maxAge : Int} {state state' : State Id} {round : Round Id} {leaving leaving' : Option Id}

theorem Base.update (base : Base maxAge state leaving) {id : Id}
    (others : ∀ other, other ≠ id → state'.view other = state.view other)
    (same : ∀ other, other ≠ id → leaving' ≠ some other → leaving ≠ some other)
    (rounds : state'.history.rounds = state.history.rounds)
    (ok : MailOk maxAge id (state'.view id))
    (spare : ∀ env, state'.json.lookup id = some env → leaving' ≠ some id →
      (state'.view id).accepted.length ≤ (state'.view id).lost) :
    Base maxAge state' leaving' := by
  refine
    { mails := ?_
      spare := ?_
      rounds := rounds ▸ base.rounds }
  · intro other
    by_cases here : other = id
    · exact here ▸ ok
    · rw [others other here]
      exact base.mails other
  · intro other env there stays
    by_cases here : other = id
    · subst here
      exact spare env there stays
    · have view := others other here
      have json : state'.json.lookup other = state.json.lookup other := congrArg View.json view
      rw [view]
      exact base.spare other env (json ▸ there) (same other here stays)

theorem Base.move {moved : Moved Id} (base : Base maxAge state moved.leaving)
    (ok : MovedOk maxAge state moved) : Sound maxAge (state.move moved) := by
  cases moved with
  | goes round =>
      refine ⟨⟨base.mails, base.spare, base.rounds⟩, ?_⟩
      intro other there
      cases there
      have same : Beside state (state.move (.goes round)) := ⟨fun _ _ => rfl, fun _ _ => rfl, rfl⟩
      exact same.roundOk ok
  | ends ended =>
      obtain ⟨tries, waited, failed⟩ := ok
      refine ⟨⟨?_, base.spare, tries, waited, base.rounds⟩,
        fun _ going => by cases going⟩
      intro id
      have before := base.mails id
      have view : (state.move (.ends ended)).view id =
          { state.view id with
            failure := lastFailure (ended :: state.history.rounds) id } := rfl
      rw [view]
      cases failure : ended.failed with
      | none =>
          rw [lastFailure_of_none failure]
          exact before
      | some pair =>
          obtain ⟨mail, again⟩ := pair
          obtain ⟨never, gone, found, known, done⟩ := failed _ failure
          cases never
          rw [lastFailure_of_some failure]
          by_cases same : mail = id
          · subst same
            rw [if_pos rfl]
            have removed : (state.view mail).json = none := gone
            exact before.givesUp done removed
          · rw [if_neg same]
            exact before

theorem Sound.steps_beside (sound : Sound maxAge state) (beside : Beside state state')
    (same : state'.round = state.round) (base : Base maxAge state' (Outbound.leaving state.round)) :
    Sound maxAge state' := by
  refine ⟨same ▸ base, ?_⟩
  intro round there
  exact beside.roundOk (sound.round round (same ▸ there))

/-! ### Spooling -/

variable {id : Id} {mail : Mail}

/-- What a step of `enqueue` leaves of the other mails and of the round. -/
structure Apart (state state' : State Id) (id : Id) : Prop where
  others : ∀ other, other ≠ id → state'.view other = state.view other
  history : state'.history = state.history
  round : state'.round = state.round

theorem apart_goOn (stage : EnqueueStage) : Apart state (state.goOn id stage) id := by
  refine ⟨?_, rfl, rfl⟩
  intro other different
  unfold State.view State.goOn
  dsimp only
  rw [Function.update_of_ne different]

theorem apart_giveBack (ok : Bool) : Apart state (state.giveBack id ok) id := by
  refine ⟨?_, rfl, rfl⟩
  intro other different
  unfold State.view State.giveBack
  dsimp only
  rw [Function.update_of_ne different, Function.update_of_ne different]

theorem apart_eml (eml : Option Bytes) :
    Apart state { state with eml := Function.update state.eml id eml } id := by
  refine ⟨?_, rfl, rfl⟩
  intro other different
  unfold State.view
  dsimp only
  rw [Function.update_of_ne different]

theorem apart_insert (env : Envelope Id) :
    Apart state { state with json := state.json.insert id env } id := by
  refine ⟨?_, rfl, rfl⟩
  intro other different
  unfold State.view
  dsimp only
  rw [AList.lookup_insert_ne different]

theorem Apart.trans {state'' : State Id} (first : Apart state state' id)
    (second : Apart state' state'' id) : Apart state state'' id :=
  { others := fun other different =>
      (second.others other different).trans (first.others other different)
    history := second.history.trans first.history
    round := second.round.trans first.round }

theorem Sound.apart (sound : Sound maxAge state) (apart : Apart state state' id)
    (ok : MailOk maxAge id (state'.view id))
    (beside : ¬(state.view id).Unseen → state'.json.lookup id = state.json.lookup id ∧
      state'.mails id = state.mails id) : Sound maxAge state' := by
  have json : ∀ other, other ≠ id → state'.json.lookup other = state.json.lookup other :=
    fun other different => congrArg View.json (apart.others other different)
  have mails : ∀ other, other ≠ id → state'.mails other = state.mails other :=
    fun other different => congrArg View.mail (apart.others other different)
  apply sound.steps_beside ⟨?_, ?_, apart.history⟩ apart.round
  · apply sound.base.update apart.others (fun _ _ stays => stays) (by rw [apart.history]) ok
    intro env there stays
    have accepted : (state'.view id).accepted = (state.view id).accepted := by
      unfold State.view
      rw [apart.history]
    have lost : (state'.view id).lost = (state.view id).lost := by
      unfold State.view
      rw [apart.history]
    rw [accepted, lost]
    by_cases unseen : (state.view id).Unseen
    · rw [unseen.2.2.1]
      exact Nat.zero_le _
    · exact sound.base.spare id env ((beside unseen).1 ▸ there) stays
  · intro other seen
    by_cases same : other = id
    · subst same
      exact (beside seen).1
    · exact json other same
  · intro other seen
    by_cases same : other = id
    · subst same
      exact (beside seen).2
    · exact mails other same

theorem view_goOn (stage : EnqueueStage) :
    (state.goOn id stage).view id = { state.view id with enqueue := some stage } := by
  unfold State.view State.goOn
  dsimp only
  rw [Function.update_self]

theorem view_giveBack (ok : Bool) : (state.giveBack id ok).view id =
    { state.view id with enqueue := none, returned := some ok } := by
  unfold State.view State.giveBack
  dsimp only
  rw [Function.update_self, Function.update_self]

theorem view_eml (eml : Option Bytes) :
    State.view { state with eml := Function.update state.eml id eml } id =
      { state.view id with eml := eml } := by
  unfold State.view
  dsimp only
  rw [Function.update_self]

theorem view_insert (env : Envelope Id) :
    State.view { state with json := state.json.insert id env } id =
      { state.view id with json := some env } := by
  unfold State.view
  dsimp only
  rw [AList.lookup_insert]

theorem Sound.enqueue_step (sound : Sound maxAge state) (ok : Bool) {stage : EnqueueStage}
    (there : state.enqueues id = some stage) (known : state.mails id = some mail) :
    Sound maxAge (state.enqueue id mail ok stage) := by
  have before := sound.base.mails id
  obtain ⟨found, same, unreturned, composed⟩ := before.composing stage there
  have equal : some found = some mail := same.symm.trans known
  cases equal
  cases stage with
  | eml stage =>
      unfold State.enqueue
      dsimp only
      split
      · rename_i stage' _
        apply sound.apart (apart_goOn _) _ fun _ => ⟨rfl, rfl⟩
        rw [view_goOn]
        exact before.goesOn known unreturned composed
      · apply sound.apart ((apart_eml _).trans (apart_goOn _)) _ fun _ => ⟨rfl, rfl⟩
        rw [view_goOn, view_eml]
        exact before.storesEml known unreturned composed
      · apply sound.apart (apart_giveBack _) _ fun _ => ⟨rfl, rfl⟩
        rw [view_giveBack]
        exact before.returnsError known composed (Or.inr rfl)
  | json stage =>
      unfold State.enqueue
      dsimp only
      split
      · rename_i stage' _
        apply sound.apart (apart_goOn _) _ fun _ => ⟨rfl, rfl⟩
        rw [view_goOn]
        exact before.goesOn known unreturned composed
      · apply sound.apart ((apart_insert _).trans (apart_goOn _)) _
          fun seen => absurd composed.1 seen
        rw [view_goOn, view_insert]
        exact before.storesJson known unreturned composed.1 composed.2
      · apply sound.apart (apart_goOn _) _ fun _ => ⟨rfl, rfl⟩
        rw [view_goOn]
        exact before.goesOn known unreturned composed.1
  | removeEml =>
      unfold State.enqueue
      dsimp only
      cases ok with
      | true =>
          apply sound.apart ((apart_eml _).trans (apart_giveBack _)) _ fun _ => ⟨rfl, rfl⟩
          rw [view_giveBack, view_eml]
          exact before.returnsError known composed (Or.inl rfl)
      | false =>
          apply sound.apart (apart_giveBack _) _ fun _ => ⟨rfl, rfl⟩
          rw [view_giveBack]
          exact before.returnsError known composed (Or.inr rfl)
  | finish =>
      unfold State.enqueue
      dsimp only
      apply sound.apart (apart_giveBack _) _ fun _ => ⟨rfl, rfl⟩
      rw [view_giveBack]
      exact before.returnsOk known composed

theorem Sound.enqueue_begins (sound : Sound maxAge state) (fresh : state.mails id = none)
    (mail : Mail) :
    Sound maxAge ({ state with mails := Function.update state.mails id (some mail) }.goOn id
      (.eml .openTmp)) := by
  have before := sound.base.mails id
  have apart : Apart state { state with mails := Function.update state.mails id (some mail) } id := by
    refine ⟨?_, rfl, rfl⟩
    intro other different
    unfold State.view
    dsimp only
    rw [Function.update_of_ne different]
  apply sound.apart (apart.trans (apart_goOn _)) _ fun seen => absurd (before.fresh fresh).1 seen
  rw [view_goOn]
  have view : State.view { state with mails := Function.update state.mails id (some mail) } id =
      { state.view id with mail := some mail } := by
    unfold State.view
    dsimp only
    rw [Function.update_self]
  rw [view]
  exact before.begins fresh mail

/-! ### Going through the envelopes -/

variable {env : Envelope Id} {rest envs : List (Envelope Id)}

theorem Base.waited_begin (base : Base maxAge state leaving)
    (waited : Waited state.history.rounds round.tried round.now)
    (there : state.json.lookup env.id = some env) (due : env.next ≤ round.now) :
    Waited state.history.rounds (env.id :: round.tried) round.now := by
  intro id member failure failed
  rcases List.mem_cons.mp member with rfl | before
  · obtain ⟨again, same, least⟩ := (base.mails env.id).postponed env failure there failed
    exact ⟨again, same, Int.le_trans least due⟩
  · exact waited id before failure failed

theorem Lined.begin (lined : Lined state round (env :: rest)) :
    Lined state (round.begin env rest) (env :: rest) :=
  { single := lined.single
    there := lined.there
    due := fun id due => (lined.due id due).imp_left (List.mem_cons_of_mem _) }

theorem Base.begin_ok (base : Base maxAge state leaving)
    (waited : Waited state.history.rounds round.tried round.now)
    (lined : Lined state round (env :: rest)) (due : env.next ≤ round.now) :
    RoundOk maxAge state (round.begin env rest) :=
  { stage := ⟨lined.begin, List.mem_cons_self, trivial⟩
    waited := base.waited_begin waited (lined.there env List.mem_cons_self) due }

theorem Lined.at_ (lined : Lined state round envs) (stage : RoundStage Id) :
    Lined state (round.at_ stage) envs :=
  ⟨lined.single, lined.there, lined.due⟩

theorem Lined.passed (lined : Lined state round (env :: rest))
    (settled : env.id ∈ round.tried ∨ ¬env.next ≤ round.now) : Lined state round rest := by
  refine
    { single := (List.nodup_cons.mp lined.single).2
      there := fun other member => lined.there other (List.mem_cons_of_mem _ member)
      due := ?_ }
  intro id due
  rcases lined.due id due with tried | ⟨other, member, same, now⟩
  · exact Or.inl tried
  · rcases List.mem_cons.mp member with rfl | later
    · rcases settled with tried | notDue
      · exact Or.inl (same ▸ tried)
      · exact absurd now notDue
    · exact Or.inr ⟨other, later, same, now⟩

omit [LinearOrder Id] in
theorem visit_leaving (round : Round Id) (connected : Bool) (envs : List (Envelope Id)) :
    (round.visit connected envs).leaving = none := by
  induction envs with
  | nil => rfl
  | cons env rest ih =>
      unfold Round.visit
      split
      · exact ih
      · split <;> rfl

theorem Base.visit_ok (base : Base maxAge state leaving)
    (waited : Waited state.history.rounds round.tried round.now)
    (lined : Lined state round envs) (connected : Bool) :
    MovedOk maxAge state (round.visit connected envs) := by
  induction envs with
  | nil =>
      refine ⟨?_, waited, nofun⟩
      intro _reached id due
      rcases lined.due id due with tried | ⟨env, member, _⟩
      · exact Or.inl tried
      · cases member
  | cons env rest ih =>
      unfold Round.visit
      split
      · rename_i later
        exact ih (lined.passed (Or.inr (by omega)))
      · rename_i due
        have now : env.next ≤ round.now := by omega
        split
        · exact base.begin_ok waited lined now
        · exact ⟨⟨lined.at_ _, now⟩, waited⟩

theorem Base.onward {moved : Moved Id} (base : Base maxAge state leaving)
    (stays : leaving = none) (free : moved.leaving = none) (ok : MovedOk maxAge state moved) :
    Sound maxAge (state.move moved) := by
  apply Base.move _ ok
  rw [free, ← stays]
  exact base

theorem Base.listed_ok (base : Base maxAge state leaving)
    (waited : Waited state.history.rounds round.tried round.now)
    (single : (envs.map Envelope.id).Nodup)
    (there : ∀ env ∈ envs, state.json.lookup env.id = some env) :
    MovedOk maxAge state (round.listed envs) := by
  unfold Round.listed
  apply base.visit_ok
  · exact waited
  refine ⟨single, there, ?_⟩
  intro id due
  obtain ⟨env, member, same⟩ := List.mem_map.mp due
  obtain ⟨listed, now⟩ := List.mem_filter.mp member
  exact Or.inr ⟨env, listed, same, of_decide_eq_true now⟩

/-! ### What is written down -/

theorem Base.carries (base : Base maxAge state leaving)
    (there : state.json.lookup env.id = some env) : ∃ mail, state.mails env.id = some mail ∧
      Carries env env.id mail := by
  obtain ⟨mail, known, carries, _⟩ := (base.mails env.id).spooled env there
  exact ⟨mail, known, carries⟩

theorem Base.writes (base : Base maxAge state leaving)
    (there : state.json.lookup id = some env) {history : History Id}
    (rounds : history.rounds = state.history.rounds)
    (others : ∀ other, other ≠ id →
      State.view { state with history } other = state.view other)
    (same : ∀ other, other ≠ id → leaving' ≠ some other → leaving ≠ some other)
    (accepts : ∀ acceptance ∈ (state.view id).accepted,
      acceptance ∈ (State.view { state with history } id).accepted)
    (answered : ∀ code ∈ (state.view id).answers,
      code ∈ (State.view { state with history } id).answers)
    (read : ∀ now ∈ (state.view id).readings,
      now ∈ (State.view { state with history } id).readings)
    (whole : ∀ acceptance ∈ (State.view { state with history } id).accepted,
      ∃ mail, state.mails id = some mail ∧ acceptance.sender = mail.sender ∧
        acceptance.rcpt = mail.rcpt ∧ acceptance.data = mail.data)
    (once : (State.view { state with history } id).accepted.length ≤
      (State.view { state with history } id).lost + 1)
    (spare : leaving' ≠ some id → (State.view { state with history } id).accepted.length ≤
      (State.view { state with history } id).lost) :
    Base maxAge { state with history } leaving' := by
  refine base.update others same rounds ?_ fun _ _ stays => spare stays
  have view : State.view { state with history } id =
      { state.view id with
        accepted := (State.view { state with history } id).accepted
        answers := (State.view { state with history } id).answers
        readings := (State.view { state with history } id).readings
        lost := (State.view { state with history } id).lost } := by
    unfold State.view
    rw [rounds]
  rw [view]
  exact (base.mails id).grows there accepts answered read whole once

theorem Base.answers (base : Base maxAge state none)
    (there : state.json.lookup env.id = some env) (code : Nat) :
    Base maxAge { state with
      history := { state.history with answers := (env.id, code) :: state.history.answers } }
      none := by
  have ok := base.mails env.id
  refine base.writes there rfl ?_ (fun _ _ _ => nofun) (fun _ member => member) ?_
    (fun _ member => member) ok.whole ok.once fun _ => base.spare env.id env there nofun
  · intro other different
    unfold State.view
    dsimp only
    rw [valuesOf_cons_of_ne different]
  · intro code' member
    unfold State.view
    dsimp only
    rw [valuesOf_cons_self]
    exact List.mem_cons_of_mem _ member

theorem Base.reads (base : Base maxAge state none)
    (there : state.json.lookup env.id = some env) (now : Int) :
    Base maxAge { state with
      history := { state.history with readings := (env.id, now) :: state.history.readings } }
      none := by
  have ok := base.mails env.id
  refine base.writes there rfl ?_ (fun _ _ _ => nofun) (fun _ member => member)
    (fun _ member => member) ?_ ok.whole ok.once fun _ => base.spare env.id env there nofun
  · intro other different
    unfold State.view
    dsimp only
    rw [valuesOf_cons_of_ne different]
  · intro now' member
    unfold State.view
    dsimp only
    rw [valuesOf_cons_self]
    exact List.mem_cons_of_mem _ member

theorem Base.accepts (base : Base maxAge state none)
    (there : state.json.lookup env.id = some env) (known : state.mails env.id = some mail)
    {lost : List Id} (counted : lost = state.history.lost ∧ leaving = some env.id ∨
      lost = env.id :: state.history.lost) :
    Base maxAge { state with
      history := { state.history with
        accepted := ⟨env.id, env.sender, env.rcpt, mail.data⟩ :: state.history.accepted
        lost := lost } } leaving := by
  obtain ⟨found, same, carries⟩ := base.carries there
  have equal : some found = some mail := same.symm.trans known
  cases equal
  have ok := base.mails env.id
  have free := base.spare env.id env there nofun
  have accepted : ∀ id, (State.view { state with
      history := { state.history with
        accepted := ⟨env.id, env.sender, env.rcpt, mail.data⟩ :: state.history.accepted
        lost := lost } } id).accepted =
      if id = env.id then ⟨env.id, env.sender, env.rcpt, mail.data⟩ :: (state.view id).accepted
      else (state.view id).accepted := by
    intro id
    unfold State.view
    dsimp only
    by_cases here : id = env.id
    · rw [if_pos here, List.filter_cons_of_pos (by simp [here])]
    · rw [if_neg here, List.filter_cons_of_neg (by simpa using Ne.symm here)]
  refine base.writes there rfl ?_ (fun _ _ _ => nofun) ?_ (fun _ member => member)
    (fun _ member => member) ?_ ?_ ?_
  · intro other different
    have lostSame : lost.count other = state.history.lost.count other := by
      rcases counted with ⟨rfl, _⟩ | rfl
      · rfl
      · exact List.count_cons_of_ne (Ne.symm different)
    unfold State.view
    dsimp only
    rw [lostSame, List.filter_cons_of_neg (by simpa using Ne.symm different)]
  · intro acceptance member
    rw [accepted, if_pos rfl]
    exact List.mem_cons_of_mem _ member
  · intro acceptance member
    rw [accepted, if_pos rfl] at member
    rcases List.mem_cons.mp member with rfl | before
    · exact ⟨mail, known, carries.2.1, carries.2.2.1, rfl⟩
    · exact ok.whole acceptance before
  · rw [accepted, if_pos rfl]
    show (state.view env.id).accepted.length + 1 ≤ lost.count env.id + 1
    have count : (state.view env.id).lost ≤ lost.count env.id := by
      rcases counted with ⟨rfl, _⟩ | rfl
      · exact Nat.le_refl _
      · rw [List.count_cons_self]
        exact Nat.le_succ _
    omega
  · intro stays
    rw [accepted, if_pos rfl]
    show (state.view env.id).accepted.length + 1 ≤ lost.count env.id
    rcases counted with ⟨_, leaves⟩ | rfl
    · exact absurd leaves stays
    · rw [List.count_cons_self]
      exact Nat.succ_le_succ free

theorem Base.loses (base : Base maxAge state (some id)) (there : state.json.lookup id = some env) :
    Base maxAge { state with
      history := { state.history with lost := id :: state.history.lost } } none := by
  have ok := base.mails id
  refine base.writes there rfl ?_ ?_ (fun _ member => member) (fun _ member => member)
    (fun _ member => member) ok.whole ?_ ?_
  · intro other different
    unfold State.view
    dsimp only
    rw [List.count_cons_of_ne (Ne.symm different)]
  · intro other different _ same
    exact different (Option.some.inj same).symm
  · show (state.view id).accepted.length ≤ (id :: state.history.lost).count id + 1
    rw [List.count_cons_self]
    exact Nat.le_succ_of_le ok.once
  · intro _
    show (state.view id).accepted.length ≤ (id :: state.history.lost).count id
    rw [List.count_cons_self]
    exact ok.once

theorem Base.erasesJson (base : Base maxAge state leaving) (decided : Decided maxAge state id)
    (only : ∀ other, other ≠ id → leaving ≠ some other) :
    Base maxAge { state with json := state.json.erase id } none := by
  obtain ⟨mail, known, done⟩ := decided
  have view : State.view { state with json := state.json.erase id } id =
      { state.view id with json := none } := by
    unfold State.view
    dsimp only
    rw [AList.lookup_erase]
  apply base.update
  · intro other different
    unfold State.view
    dsimp only
    rw [AList.lookup_erase_ne different]
  · exact fun other different _ => only other different
  · rfl
  · rw [view]
    exact (base.mails id).removesJson known done
  · intro env there
    have gone : (state.json.erase id).lookup id = none := AList.lookup_erase id state.json
    rw [gone] at there
    cases there

theorem Base.erasesEml (base : Base maxAge state leaving) (decided : Decided maxAge state id) :
    Base maxAge { state with eml := Function.update state.eml id none } leaving := by
  obtain ⟨mail, known, done⟩ := decided
  apply base.update (apart_eml none).others (fun _ _ stays => stays) rfl
  · rw [view_eml]
    exact (base.mails id).removesEml known done
  · exact fun env there stays => base.spare id env there stays

end Steps

end Pttbbs.MailSvc.Outbound
