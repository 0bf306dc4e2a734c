/-
What the spool knows of one mail.

Everything that concerns a mail is gathered in a view of the state, which the steps of
other mails leave alone.  What holds of a view is kept by every change to it: the files
come and go, the relay answers, callers are told.
-/

import Pttbbs.MailSvc.Outbound

namespace Pttbbs.MailSvc.Outbound

variable {Id : Type}

structure View (Id : Type) where
  eml : Option Bytes
  json : Option (Envelope Id)
  enqueue : Option EnqueueStage
  mail : Option Mail
  returned : Option Bool
  accepted : List (Acceptance Id)
  answers : List Nat
  readings : List Int
  lost : Nat
  failure : Option (Option Int)

def View.Done (maxAge : Int) (view : View Id) (mail : Mail) : Prop :=
  view.accepted ≠ [] ∨ (∃ code ∈ view.answers, 500 ≤ code) ∨
    ∃ now ∈ view.readings, now - mail.created > maxAge

def View.Unseen (view : View Id) : Prop :=
  view.json = none ∧ view.failure = none ∧ view.accepted = [] ∧ view.answers = [] ∧
    view.readings = []

theorem View.Unseen.not_done {maxAge : Int} {view : View Id} {mail : Mail} (unseen : view.Unseen) :
    ¬view.Done maxAge mail := by
  obtain ⟨_, _, accepted, answers, readings⟩ := unseen
  rintro (some | ⟨code, member, _⟩ | ⟨now, member, _⟩)
  · exact some accepted
  · rw [answers] at member
    cases member
  · rw [readings] at member
    cases member

def Carries (env : Envelope Id) (id : Id) (mail : Mail) : Prop :=
  env.id = id ∧ env.sender = mail.sender ∧ env.rcpt = mail.rcpt ∧ env.created = mail.created

/-- What a failure that is due again at a time, or never, leaves of the envelope. -/
def Postponed (failure : Option Int) (next : Int) : Prop :=
  ∃ again, failure = some again ∧ again ≤ next

def Composing (maxAge : Int) (view : View Id) (mail : Mail) : EnqueueStage → Prop
  | .eml _ | .removeEml => view.Unseen
  | .json _ => view.Unseen ∧ view.eml = some mail.data
  | .finish => view.json ≠ none ∨ view.Done maxAge mail

structure MailOk (maxAge : Int) (id : Id) (view : View Id) : Prop where
  stored : ∀ data, view.eml = some data → ∃ mail, view.mail = some mail ∧ data = mail.data
  spooled : ∀ env, view.json = some env → ∃ mail, view.mail = some mail ∧ Carries env id mail ∧
    (view.eml = some mail.data ∨ view.Done maxAge mail)
  postponed : ∀ env failure, view.json = some env → view.failure = some failure →
    Postponed failure env.next
  composing : ∀ stage, view.enqueue = some stage → ∃ mail, view.mail = some mail ∧
    view.returned = none ∧ Composing maxAge view mail stage
  kept : view.returned = some true → ∃ mail, view.mail = some mail ∧
    (view.json ≠ none ∨ view.Done maxAge mail)
  unsent : view.returned = some false → view.Unseen
  fresh : view.mail = none → view.Unseen ∧ view.enqueue = none ∧ view.returned = none
  whole : ∀ acceptance ∈ view.accepted, ∃ mail, view.mail = some mail ∧
    acceptance.sender = mail.sender ∧ acceptance.rcpt = mail.rcpt ∧ acceptance.data = mail.data
  once : view.accepted.length ≤ view.lost + 1

namespace MailOk

variable {maxAge : Int} {id : Id} {view : View Id} {mail : Mail} {stage : EnqueueStage}

/-! ### Spooling -/

theorem begins (ok : MailOk maxAge id view) (fresh : view.mail = none) (mail : Mail) :
    MailOk maxAge id
      { view with mail := some mail, enqueue := some (.eml .openTmp) } := by
  obtain ⟨unseen, _, unreturned⟩ := ok.fresh fresh
  refine
    { stored := ?_
      spooled := ?_
      postponed := ok.postponed
      composing := ?_
      kept := ?_
      unsent := ok.unsent
      fresh := nofun
      whole := ?_
      once := ok.once }
  · intro data there
    obtain ⟨other, known, _⟩ := ok.stored data there
    rw [fresh] at known
    cases known
  · intro env there
    rw [unseen.1] at there
    cases there
  · intro stage there
    cases there
    exact ⟨mail, rfl, unreturned, unseen⟩
  · intro returned
    rw [unreturned] at returned
    cases returned
  · intro acceptance member
    rw [unseen.2.2.1] at member
    cases member

section

variable (ok : MailOk maxAge id view) (known : view.mail = some mail)

include ok known

theorem goesOn (unreturned : view.returned = none) (composing : Composing maxAge view mail stage) :
    MailOk maxAge id { view with enqueue := some stage } :=
  { stored := ok.stored
    spooled := ok.spooled
    postponed := ok.postponed
    composing := fun _ there => Option.some.inj there ▸ ⟨mail, known, unreturned, composing⟩
    kept := ok.kept
    unsent := ok.unsent
    fresh := fun none => by rw [known] at none; cases none
    whole := ok.whole
    once := ok.once }

theorem storesEml (unreturned : view.returned = none) (unseen : view.Unseen) :
    MailOk maxAge id
      { view with eml := some mail.data, enqueue := some (.json .openTmp) } :=
  { stored := fun _ there => ⟨mail, known, (Option.some.inj there).symm⟩
    spooled := fun env there => by rw [unseen.1] at there; cases there
    postponed := ok.postponed
    composing := fun _ there => Option.some.inj there ▸ ⟨mail, known, unreturned, unseen, rfl⟩
    kept := ok.kept
    unsent := ok.unsent
    fresh := fun none => by rw [known] at none; cases none
    whole := ok.whole
    once := ok.once }

theorem storesJson (unreturned : view.returned = none) (unseen : view.Unseen)
    (stored : view.eml = some mail.data) :
    MailOk maxAge id
      { view with json := some (State.envelopeOf id mail), enqueue := some .finish } :=
  { stored := ok.stored
    spooled := fun _ there => Option.some.inj there ▸
      ⟨mail, known, ⟨rfl, rfl, rfl, rfl⟩, Or.inl stored⟩
    postponed := fun _ failure _ failed => by rw [unseen.2.1] at failed; cases failed
    composing := fun _ there => Option.some.inj there ▸ ⟨mail, known, unreturned, Or.inl nofun⟩
    kept := fun returned => by rw [unreturned] at returned; cases returned
    unsent := fun returned => by rw [unreturned] at returned; cases returned
    fresh := fun none => by rw [known] at none; cases none
    whole := ok.whole
    once := ok.once }

theorem returnsOk (kept : view.json ≠ none ∨ view.Done maxAge mail) :
    MailOk maxAge id { view with enqueue := none, returned := some true } :=
  { stored := ok.stored
    spooled := ok.spooled
    postponed := ok.postponed
    composing := nofun
    kept := fun _ => ⟨mail, known, kept⟩
    unsent := nofun
    fresh := fun none => by rw [known] at none; cases none
    whole := ok.whole
    once := ok.once }

theorem returnsError (unseen : view.Unseen) {eml : Option Bytes}
    (rest : eml = none ∨ eml = view.eml) :
    MailOk maxAge id
      { view with eml := eml, enqueue := none, returned := some false } :=
  { stored := fun data there => by
      rcases rest with gone | same
      · rw [gone] at there
        cases there
      · exact ok.stored data (same ▸ there)
    spooled := fun env there => by rw [unseen.1] at there; cases there
    postponed := ok.postponed
    composing := nofun
    kept := nofun
    unsent := fun _ => unseen
    fresh := fun none => by rw [known] at none; cases none
    whole := ok.whole
    once := ok.once }

end

/-! ### Sending -/

theorem finishing (ok : MailOk maxAge id view) (seen : ¬view.Unseen)
    (composing : view.enqueue = some stage) : stage = .finish ∧ ∃ mail, view.mail = some mail ∧
      view.returned = none ∧ (view.json ≠ none ∨ view.Done maxAge mail) := by
  obtain ⟨mail, known, unreturned, composed⟩ := ok.composing stage composing
  cases stage with
  | eml stage => exact absurd composed seen
  | json stage => exact absurd composed.1 seen
  | removeEml => exact absurd composed seen
  | finish => exact ⟨rfl, mail, known, unreturned, composed⟩

theorem grows (ok : MailOk maxAge id view) {env : Envelope Id} (there : view.json = some env)
    {accepted : List (Acceptance Id)} {answers : List Nat} {readings : List Int} {lost : Nat}
    (accepts : ∀ acceptance ∈ view.accepted, acceptance ∈ accepted)
    (answered : ∀ code ∈ view.answers, code ∈ answers)
    (read : ∀ now ∈ view.readings, now ∈ readings)
    (whole : ∀ acceptance ∈ accepted, ∃ mail, view.mail = some mail ∧
      acceptance.sender = mail.sender ∧ acceptance.rcpt = mail.rcpt ∧ acceptance.data = mail.data)
    (once : accepted.length ≤ lost + 1) :
    MailOk maxAge id { view with accepted, answers, readings, lost } := by
  have done : ∀ mail, view.Done maxAge mail →
      View.Done maxAge { view with accepted, answers, readings, lost } mail := by
    rintro mail (some | ⟨code, member, refused⟩ | ⟨now, member, old⟩)
    · obtain ⟨acceptance, member⟩ := List.exists_mem_of_ne_nil _ some
      exact Or.inl (List.ne_nil_of_mem (accepts acceptance member))
    · exact Or.inr (Or.inl ⟨code, answered code member, refused⟩)
    · exact Or.inr (Or.inr ⟨now, read now member, old⟩)
  have seen : ¬view.Unseen := by
    intro unseen
    rw [unseen.1] at there
    cases there
  refine
    { stored := ok.stored
      spooled := ?_
      postponed := ok.postponed
      composing := ?_
      kept := ?_
      unsent := fun returned => absurd (ok.unsent returned) seen
      fresh := fun unknown => absurd (ok.fresh unknown).1 seen
      whole := whole
      once := once }
  · intro env' same
    obtain ⟨mail, known, carries, files⟩ := ok.spooled env' same
    exact ⟨mail, known, carries, files.imp_right (done mail)⟩
  · intro stage composing
    obtain ⟨rfl, mail, known, unreturned, composed⟩ := ok.finishing seen composing
    exact ⟨mail, known, unreturned, composed.imp_right (done mail)⟩
  · intro returned
    obtain ⟨mail, known, files⟩ := ok.kept returned
    exact ⟨mail, known, files.imp_right (done mail)⟩

theorem removesJson (ok : MailOk maxAge id view) (known : view.mail = some mail)
    (done : view.Done maxAge mail) : MailOk maxAge id { view with json := none } := by
  have seen : ¬view.Unseen := fun unseen => unseen.not_done done
  refine
    { stored := ok.stored
      spooled := fun _ there => by cases there
      postponed := fun _ _ there => by cases there
      composing := ?_
      kept := fun _ => ⟨mail, known, Or.inr done⟩
      unsent := fun returned => absurd (ok.unsent returned) seen
      fresh := fun unknown => absurd (ok.fresh unknown).1 seen
      whole := ok.whole
      once := ok.once }
  intro stage composing
  obtain ⟨rfl, other, _, unreturned, _⟩ := ok.finishing seen composing
  exact ⟨mail, known, unreturned, Or.inr done⟩

theorem removesEml (ok : MailOk maxAge id view) (known : view.mail = some mail)
    (done : view.Done maxAge mail) : MailOk maxAge id { view with eml := none } := by
  have seen : ¬view.Unseen := fun unseen => unseen.not_done done
  refine
    { stored := nofun
      spooled := ?_
      postponed := ok.postponed
      composing := ?_
      kept := ok.kept
      unsent := ok.unsent
      fresh := ok.fresh
      whole := ok.whole
      once := ok.once }
  · intro env there
    obtain ⟨other, same, carries, _⟩ := ok.spooled env there
    rw [known] at same
    cases same
    exact ⟨mail, known, carries, Or.inr done⟩
  · intro stage composing
    obtain ⟨rfl, other, _, unreturned, _⟩ := ok.finishing seen composing
    exact ⟨mail, known, unreturned, Or.inr done⟩

theorem saves (ok : MailOk maxAge id view) (known : view.mail = some mail)
    {old env : Envelope Id} (there : view.json = some old) (carries : Carries env id mail) :
    MailOk maxAge id { view with json := some env, failure := some (some env.next) } := by
  have seen : ¬view.Unseen := by
    intro unseen
    rw [unseen.1] at there
    cases there
  refine
    { stored := ok.stored
      spooled := ?_
      postponed := ?_
      composing := ?_
      kept := fun returned => ⟨mail, known, Or.inl nofun⟩
      unsent := fun returned => absurd (ok.unsent returned) seen
      fresh := fun unknown => absurd (ok.fresh unknown).1 seen
      whole := ok.whole
      once := ok.once }
  · intro env' same
    obtain ⟨other, known', _, files⟩ := ok.spooled old there
    rw [known] at known'
    cases known'
    exact ⟨mail, known, Option.some.inj same ▸ carries, files⟩
  · intro env' failure same failed
    cases same
    cases failed
    exact ⟨env.next, rfl, Int.le_refl _⟩
  · intro stage composing
    obtain ⟨rfl, other, same, unreturned, _⟩ := ok.finishing seen composing
    exact ⟨other, same, unreturned, Or.inl nofun⟩

theorem givesUp (ok : MailOk maxAge id view) (done : view.Done maxAge mail) (gone : view.json = none) :
    MailOk maxAge id { view with failure := some none } := by
  have seen : ¬view.Unseen := fun unseen => unseen.not_done done
  refine
    { stored := ok.stored
      spooled := ok.spooled
      postponed := ?_
      composing := ?_
      kept := ok.kept
      unsent := fun returned => absurd (ok.unsent returned) seen
      fresh := fun unknown => absurd (ok.fresh unknown).1 seen
      whole := ok.whole
      once := ok.once }
  · intro env failure there
    rw [gone] at there
    cases there
  · intro stage composing
    obtain ⟨rfl, other, same, unreturned, composed⟩ := ok.finishing seen composing
    exact ⟨other, same, unreturned, composed⟩

theorem crashes (ok : MailOk maxAge id view) {lost : Nat} (more : view.lost ≤ lost) :
    MailOk maxAge id { view with enqueue := none, lost } :=
  { stored := ok.stored
    spooled := ok.spooled
    postponed := ok.postponed
    composing := nofun
    kept := ok.kept
    unsent := ok.unsent
    fresh := fun unknown => ⟨(ok.fresh unknown).1, rfl, (ok.fresh unknown).2.2⟩
    whole := ok.whole
    once := by
      have before := ok.once
      dsimp only
      omega }

end MailOk

/-! ### The view of a state -/

variable [LinearOrder Id]

def valuesOf {Value : Type} (id : Id) (pairs : List (Id × Value)) : List Value :=
  pairs.filterMap fun pair => if pair.1 = id then some pair.2 else none

theorem mem_valuesOf {Value : Type} {id : Id} {pairs : List (Id × Value)} {value : Value} :
    value ∈ valuesOf id pairs ↔ (id, value) ∈ pairs := by
  unfold valuesOf
  rw [List.mem_filterMap]
  constructor
  · rintro ⟨⟨other, found⟩, member, picked⟩
    dsimp only at picked
    split at picked
    · rename_i same
      subst same
      cases picked
      exact member
    · cases picked
  · intro member
    exact ⟨(id, value), member, by simp⟩

theorem valuesOf_cons_self {Value : Type} (id : Id) (value : Value) (pairs : List (Id × Value)) :
    valuesOf id ((id, value) :: pairs) = value :: valuesOf id pairs := by
  unfold valuesOf
  rw [List.filterMap_cons, if_pos rfl]

theorem valuesOf_cons_of_ne {Value : Type} {id other : Id} (different : other ≠ id)
    (value : Value) (pairs : List (Id × Value)) :
    valuesOf other ((id, value) :: pairs) = valuesOf other pairs := by
  unfold valuesOf
  rw [List.filterMap_cons, if_neg (Ne.symm different)]

def State.view (state : State Id) (id : Id) : View Id :=
  { eml := state.eml id
    json := state.json.lookup id
    enqueue := state.enqueues id
    mail := state.mails id
    returned := state.returned id
    accepted := state.history.accepted.filter fun acceptance => acceptance.id = id
    answers := valuesOf id state.history.answers
    readings := valuesOf id state.history.readings
    lost := state.history.lost.count id
    failure := lastFailure state.history.rounds id }

end Pttbbs.MailSvc.Outbound
