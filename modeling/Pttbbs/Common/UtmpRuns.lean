/-
The lists of sessions in every run of the processes.

The invariant says what each call in progress knows of its own slot and of the slots its
pass holds.  A call that has seen its slot free of every list and of every pass keeps it so
until the slot is in a list, since a pass only reaches slots that a list leads to.
-/

import Pttbbs.Common.UtmpLists

namespace Pttbbs.Common.UtmpUser

open Pttbbs.Lib

variable {size maxUsers : Nat}

/-! ### When a slot may be used again -/

def Table.Unlinked (table : Table size maxUsers) (slot : Fin size) : Prop :=
  ∀ user, seek (fun other => (table.nextSession other).target) (fun other => other = slot) size
    (table.userHead user) = none

instance (table : Table size maxUsers) (slot : Fin size) : Decidable (table.Unlinked slot) :=
  inferInstanceAs (Decidable (∀ _, _))

theorem loose_of_unlinked {table : Table size maxUsers}
    {chain : Fin (maxUsers + 1) → List (Fin size)}
    (chains : Chains table.userHead table.nextSession chain) {slot : Fin size}
    (unlinked : table.Unlinked slot) : Loose chain slot := by
  intro user member
  have short : (chain user).length ≤ size := by
    have bound := (chains.single user).length_le_card
    rwa [Fintype.card_fin] at bound
  have found := (chains.linked user).seek_eq (fun other => other = slot) short
  rw [unlinked user] at found
  have other := List.find?_eq_none.mp found.symm slot member
  simp at other

def claims? : Option (Call size maxUsers) → Option (Fin size)
  | some ⟨uslot, _, .add .loadHead⟩ => some uslot
  | _ => none

def heldBy (stage : Option (Call size maxUsers)) : List (Fin size) :=
  (stage.map fun call => call.work.held).getD []

section Processes

variable {Proc : Type}

/-- A slot is chosen a list only when no list leads to it any more and no pass still has it
in a local variable. -/
def Reclaimed (state : State Proc size maxUsers) : Action Proc size → Prop
  | .move proc => ∀ slot ∈ claims? (state.stages proc),
      state.shared.Unlinked slot ∧ ∀ other, slot ∉ heldBy (state.stages other)
  | _ => True

instance [Fintype Proc] (state : State Proc size maxUsers) (action : Action Proc size) :
    Decidable (Reclaimed state action) :=
  match action with
  | .move proc => inferInstanceAs (Decidable (∀ slot ∈ claims? (state.stages proc),
      state.shared.Unlinked slot ∧ ∀ other, slot ∉ heldBy (state.stages other)))
  | .add _ _ _ => isTrue trivial
  | .remove _ _ _ => isTrue trivial

instance [DecidableEq Proc] (owner : Fin size → Proc) (state : State Proc size maxUsers)
    (action : Action Proc size) : Decidable (Alternates owner state action) :=
  match action with
  | .add _ _ _ => inferInstanceAs (Decidable (_ ∧ _))
  | .remove _ _ _ => inferInstanceAs (Decidable (_ ∧ _))
  | .move _ => isTrue trivial

/-! ### The invariant -/

structure SlotOk (table : Table size maxUsers) (chain : Fin (maxUsers + 1) → List (Fin size))
    (stage : Option (Call size maxUsers)) (slot : Fin size) : Prop where
  working : ∀ unum work, stage = some ⟨slot, unum, work⟩ → WorkOk table chain slot unum work
  settled : (∀ call, stage = some call → call.uslot ≠ slot) → Settled table chain slot

structure Sound (owner : Fin size → Proc) (state : State Proc size maxUsers)
    (chain : Fin (maxUsers + 1) → List (Fin size)) : Prop where
  chains : Chains state.shared.userHead state.shared.nextSession chain
  owned : ∀ proc call, state.stages proc = some call → owner call.uslot = proc ∧ call.unum ≠ 0
  passes : ∀ proc call, state.stages proc = some call → ∀ stage, call.work.pass? = some stage →
    CleanOk state.shared.nextSession chain stage
  slots : ∀ slot, SlotOk state.shared chain (state.stages (owner slot)) slot
  free : ∀ proc call, state.stages proc = some call → call.work.reclaims = true →
    ∀ other, call.uslot ∉ heldBy (state.stages other)

theorem heldBy_some (call : Call size maxUsers) : heldBy (some call) = call.work.held := rfl

theorem held_of_reclaims {work : Work size maxUsers} (reclaims : work.reclaims = true) :
    work.held = [] := by
  rcases work with stage | stage
  · cases stage <;> first | rfl | cases reclaims
  · cases reclaims

theorem loose_of_reclaims {table : Table size maxUsers}
    {chain : Fin (maxUsers + 1) → List (Fin size)} {uslot : Fin size} {unum : Fin (maxUsers + 1)}
    {work : Work size maxUsers} (ok : WorkOk table chain uslot unum work)
    (reclaims : work.reclaims = true) : Loose chain uslot := by
  rcases work with stage | stage
  · cases stage with
    | storeNext oldHead => exact ok.2
    | swapHead oldHead => exact ok.2.1
    | _ => cases reclaims
  · cases reclaims

section Steps

variable {owner : Fin size → Proc} {state : State Proc size maxUsers}
  {chain chain' : Fin (maxUsers + 1) → List (Fin size)} {proc : Proc} {uslot : Fin size}
  {unum : Fin (maxUsers + 1)} {work : Work size maxUsers} {after : Table size maxUsers}
  {next : Option (Work size maxUsers)}

theorem Sound.workOk (sound : Sound owner state chain)
    (here : state.stages proc = some ⟨uslot, unum, work⟩) :
    WorkOk state.shared chain uslot unum work := by
  apply (sound.slots uslot).working
  rw [(sound.owned proc _ here).1]
  exact here

theorem Sound.unheld (sound : Sound owner state chain)
    (here : state.stages proc = some ⟨uslot, unum, work⟩)
    (fresh : work = .add .loadHead → ∀ other, uslot ∉ heldBy (state.stages other))
    (reclaims : work.reclaims = true ∨ work = .add .loadHead) (other : Proc) :
    uslot ∉ heldBy (state.stages other) := by
  rcases reclaims with already | now
  · exact sound.free proc _ here already other
  · exact fresh now other

theorem Sound.passes_move (sound : Sound owner state chain)
    (here : state.stages proc = some ⟨uslot, unum, work⟩)
    (accessed : Accessed state.shared chain uslot unum work after chain' next)
    {other : Proc} {call : Call size maxUsers} (there : state.stages other = some call)
    {stage : CleanStage size} (inside : call.work.pass? = some stage) :
    CleanOk after.nextSession chain' stage := by
  apply (sound.passes other call there stage inside).steady
  intro slot held
  apply accessed.steady
  rintro reclaims rfl
  apply sound.free proc _ here reclaims other
  rw [there, heldBy_some, Work.held_eq, inside]
  exact held

theorem Sound.settled_of_idle (sound : Sound owner state chain) (idle : state.stages proc = none)
    (owns : owner uslot = proc) : Settled state.shared chain uslot := by
  apply (sound.slots uslot).settled
  rw [owns, idle]
  nofun

variable [DecidableEq Proc]

theorem stage_cases {stages : Proc → Option (Call size maxUsers)}
    {stage : Option (Call size maxUsers)} {other : Proc} {call : Call size maxUsers}
    (there : Function.update stages proc stage other = some call) :
    other = proc ∧ stage = some call ∨ other ≠ proc ∧ stages other = some call := by
  by_cases own : other = proc
  · subst own
    rw [Function.update_self] at there
    exact Or.inl ⟨rfl, there⟩
  · rw [Function.update_of_ne own] at there
    exact Or.inr ⟨own, there⟩

theorem Sound.slots_move (sound : Sound owner state chain)
    (here : state.stages proc = some ⟨uslot, unum, work⟩)
    (accessed : Accessed state.shared chain uslot unum work after chain' next) (slot : Fin size) :
    SlotOk after chain' (Function.update state.stages proc
      (next.map fun work => ⟨uslot, unum, work⟩) (owner slot)) slot := by
  have owns := (sound.owned proc _ here).1
  by_cases same : slot = uslot
  · subst same
    rw [owns, Function.update_self]
    constructor
    · intro unum' work' there
      obtain ⟨next', goes, equal⟩ := Option.map_eq_some_iff.mp there
      cases equal
      exact (accessed.continues _ goes).workOk
    · intro finished
      apply accessed.ends
      cases next with
      | none => rfl
      | some work' => exact absurd rfl (finished _ rfl)
  · have known := sound.slots slot
    have untouched := accessed.others slot same
    by_cases mine : owner slot = proc
    · rw [mine, Function.update_self]
      constructor
      · intro unum' work' there
        obtain ⟨next', goes, equal⟩ := Option.map_eq_some_iff.mp there
        cases equal
        exact absurd rfl same
      · intro _finished
        apply untouched.settled
        apply known.settled
        intro call there
        rw [mine, here] at there
        cases there
        exact Ne.symm same
    · rw [Function.update_of_ne mine]
      exact ⟨fun unum' work' there => untouched.workOk (known.working unum' work' there),
        fun finished => untouched.settled (known.settled finished)⟩

section

variable (sound : Sound owner state chain) (here : state.stages proc = some ⟨uslot, unum, work⟩)
  (fresh : work = .add .loadHead → ∀ other, uslot ∉ heldBy (state.stages other))
  (accessed : Accessed state.shared chain uslot unum work after chain' next)

include sound here fresh accessed

theorem Sound.free_move {claimer : Proc} {call : Call size maxUsers}
    (there : Function.update state.stages proc (next.map fun work => ⟨uslot, unum, work⟩) claimer =
      some call)
    (reclaims : call.work.reclaims = true) (other : Proc) :
    call.uslot ∉ heldBy (Function.update state.stages proc
      (next.map fun work => ⟨uslot, unum, work⟩) other) := by
  rcases stage_cases there with ⟨rfl, mine⟩ | ⟨_different, before⟩
  · by_cases own : other = claimer
    · subst own
      rw [Function.update_self, mine, heldBy_some, held_of_reclaims reclaims]
      exact List.not_mem_nil
    · obtain ⟨work', goes, rfl⟩ := Option.map_eq_some_iff.mp mine
      rw [Function.update_of_ne own]
      exact sound.unheld here fresh ((accessed.continues work' goes).reclaims reclaims) other
  · by_cases own : other = proc
    · subst own
      rw [Function.update_self]
      cases next with
      | none => exact List.not_mem_nil
      | some work' =>
          intro held
          rcases (accessed.continues work' rfl).reached _ held with already | ⟨key, member⟩
          · apply sound.free claimer call before reclaims other
            rw [here]
            exact already
          · exact loose_of_reclaims (sound.workOk before) reclaims key member
    · rw [Function.update_of_ne own]
      exact sound.free claimer call before reclaims other

theorem Sound.move :
    Sound owner ⟨after, Function.update state.stages proc
      (next.map fun work => ⟨uslot, unum, work⟩)⟩ chain' := by
  refine
    { chains := accessed.chains
      owned := ?_
      passes := ?_
      slots := sound.slots_move here accessed
      free := fun claimer call there reclaims other =>
        sound.free_move here fresh accessed there reclaims other }
  · intro other call there
    rcases stage_cases there with ⟨rfl, own⟩ | ⟨_different, there⟩
    · obtain ⟨work', goes, rfl⟩ := Option.map_eq_some_iff.mp own
      have before := sound.owned other _ here
      exact before
    · exact sound.owned other call there
  · intro other call there stage inside
    rcases stage_cases there with ⟨rfl, own⟩ | ⟨_different, there⟩
    · obtain ⟨work', goes, rfl⟩ := Option.map_eq_some_iff.mp own
      exact (accessed.continues work' goes).passOk stage inside
    · exact sound.passes_move here accessed there inside

end

theorem Sound.begins (sound : Sound owner state chain) (idle : state.stages proc = none)
    (owns : owner uslot = proc) (user : unum ≠ 0) (ok : WorkOk state.shared chain uslot unum work)
    (outside : work.pass? = none) (notReclaims : work.reclaims = false) :
    Sound owner ⟨state.shared, Function.update state.stages proc (some ⟨uslot, unum, work⟩)⟩
      chain := by
  refine
    { chains := sound.chains
      owned := ?_
      passes := ?_
      slots := ?_
      free := ?_ }
  · intro other call there
    rcases stage_cases there with ⟨rfl, own⟩ | ⟨_different, there⟩
    · cases own
      exact ⟨owns, user⟩
    · exact sound.owned other call there
  · intro other call there stage inside
    rcases stage_cases there with ⟨rfl, own⟩ | ⟨_different, there⟩
    · cases own
      rw [outside] at inside
      cases inside
    · exact sound.passes other call there stage inside
  · intro slot
    have known := sound.slots slot
    dsimp only
    by_cases mine : owner slot = proc
    · rw [mine, Function.update_self]
      rw [mine, idle] at known
      constructor
      · intro unum' work' there
        cases there
        exact ok
      · intro _finished
        exact known.settled fun _ there => by cases there
    · rw [Function.update_of_ne mine]
      exact known
  · intro claimer call there reclaims other
    dsimp only
    rcases stage_cases there with ⟨rfl, own⟩ | ⟨_different, there⟩
    · cases own
      rw [notReclaims] at reclaims
      cases reclaims
    · by_cases own : other = proc
      · subst own
        rw [Function.update_self, heldBy_some, Work.held_eq, outside]
        exact List.not_mem_nil
      · rw [Function.update_of_ne own]
        exact sound.free claimer call there reclaims other

theorem userOf?_some {number : Int} {user : Fin (maxUsers + 1)} (valid : userOf? number = some user) :
    ((user : Nat) : Int) = number ∧ user ≠ 0 := by
  unfold userOf? at valid
  split at valid
  · rename_i bounds
    cases valid
    constructor
    · exact Int.toNat_of_nonneg (by omega)
    · intro zero
      have value : number.toNat = 0 := congrArg Fin.val zero
      omega
  · cases valid

theorem step_move_eq (state : State Proc size maxUsers) (proc : Proc) :
    step state (.move proc) = ⟨(access state.shared (state.stages proc)).1,
      Function.update state.stages proc (access state.shared (state.stages proc)).2⟩ := rfl

theorem Sound.step_move (sound : Sound owner state chain)
    (reclaimed : Reclaimed state (.move proc)) :
    ∃ chain', Sound owner (step state (.move proc)) chain' := by
  rw [step_move_eq]
  cases here : state.stages proc with
  | none =>
      refine ⟨chain, ?_⟩
      show Sound owner ⟨state.shared, Function.update state.stages proc none⟩ chain
      rw [← here, Function.update_eq_self]
      exact sound
  | some call =>
      obtain ⟨uslot, unum, work⟩ := call
      have user := (sound.owned proc _ here).2
      have ok := sound.workOk here
      have passOk := sound.passes proc _ here
      cases work with
      | add stage =>
          have claimed : stage = .loadHead → state.shared.Unlinked uslot ∧
              ∀ other, uslot ∉ heldBy (state.stages other) := by
            rintro rfl
            exact reclaimed uslot (by rw [here]; rfl)
          obtain ⟨chain', accessed⟩ := addToUtmpUser_accessed sound.chains user ok passOk
            fun loads => loose_of_unlinked sound.chains (claimed loads).1
          have moved := sound.move here (fun loads => (claimed (Work.add.inj loads)).2) accessed
          rw [Option.map_map] at moved
          exact ⟨chain', moved⟩
      | remove stage =>
          obtain ⟨chain', accessed⟩ := removeFromUtmpUser_accessed sound.chains ok passOk
          have moved := sound.move here (fun loads => by cases loads) accessed
          rw [Option.map_map] at moved
          exact ⟨chain', moved⟩

theorem Sound.step_sound (sound : Sound owner state chain) {action : Action Proc size}
    (alternates : Alternates owner state action) (reclaimed : Reclaimed state action) :
    ∃ chain', Sound owner (step state action) chain' := by
  cases action with
  | add proc uslot number =>
      obtain ⟨idle, owns, session⟩ := alternates
      unfold step beginCall
      dsimp only
      split
      · exact ⟨chain, sound⟩
      · rename_i user valid
        refine ⟨chain, sound.begins idle owns (userOf?_some valid).2 ?_ rfl rfl⟩
        rcases sound.settled_of_idle idle owns with ⟨_, off⟩ | ⟨taken, _⟩
        · exact ⟨session, off⟩
        · exact absurd session taken
  | remove proc uslot number =>
      obtain ⟨idle, owns, session⟩ := alternates
      unfold step beginCall
      dsimp only
      split
      · exact ⟨chain, sound⟩
      · rename_i user valid
        obtain ⟨value, nonzero⟩ := userOf?_some valid
        have same : state.shared.sessionUser uslot = user := by
          apply Fin.ext
          omega
        refine ⟨chain, sound.begins idle owns nonzero ?_ rfl rfl⟩
        rcases sound.settled_of_idle idle owns with ⟨zero, _⟩ | ⟨_, live⟩
        · exact absurd (same ▸ zero) nonzero
        · exact ⟨same, same ▸ live⟩
  | move proc => exact sound.step_move reclaimed

end Steps

/-! ### The start -/

structure Built (table : Table size maxUsers) (chain : Fin (maxUsers + 1) → List (Fin size))
    (rest : List (Fin size)) : Prop where
  chains : Chains table.userHead table.nextSession chain
  settled : ∀ slot, Settled table chain slot
  loose : ∀ slot ∈ rest, Loose chain slot

theorem built_empty (rest : List (Fin size)) :
    Built (emptyTable : Table size maxUsers) (fun _ => []) rest :=
  { chains := ⟨fun _ => Linked.done, fun _ => List.nodup_nil, nofun⟩
    settled := fun _ => Or.inl ⟨rfl, Or.inl fun _ => List.not_mem_nil⟩
    loose := fun _ _ _ => List.not_mem_nil }

theorem Built.enroll {table : Table size maxUsers} {chain : Fin (maxUsers + 1) → List (Fin size)}
    {slot : Fin size} {rest : List (Fin size)} (built : Built table chain (slot :: rest))
    (single : (slot :: rest).Nodup) (uinfo : Fin size → UserInfo) :
    ∃ chain', Built (enroll uinfo table slot) chain' rest := by
  have later : Built table chain rest :=
    ⟨built.chains, built.settled, fun other member =>
      built.loose other (List.mem_cons_of_mem _ member)⟩
  unfold UtmpUser.enroll
  split
  · split
    · exact ⟨chain, later⟩
    · rename_i uid valid
      have loose := built.loose slot List.mem_cons_self
      have target : (Function.update table.nextSession slot ⟨table.userHead uid, false⟩
          slot).target = table.userHead uid := by
        rw [Function.update_self]
      refine ⟨Function.update chain uid (slot :: chain uid),
        (built.chains.store loose _).push loose target, ?_, ?_⟩
      · intro other
        by_cases same : other = slot
        · subst same
          right
          unfold Live
          dsimp only
          rw [Function.update_self, Function.update_self, Function.update_self]
          exact ⟨(userOf?_some valid).2, List.mem_cons_self, rfl⟩
        · have stored : Untouched table chain
              (table.storeNext slot ⟨table.userHead uid, false⟩) chain other :=
            ⟨Chains.kept_store _ same, rfl⟩
          have pushed : Untouched (table.storeNext slot ⟨table.userHead uid, false⟩) chain
              ⟨Function.update table.userHead uid (some slot),
                Function.update table.nextSession slot ⟨table.userHead uid, false⟩,
                Function.update table.sessionUser slot uid⟩
              (Function.update chain uid (slot :: chain uid)) other :=
            ⟨Chains.kept_push same, Function.update_of_ne same _ _⟩
          exact pushed.settled (stored.settled (built.settled other))
      · intro other member user inside
        have different : other ≠ slot := by
          rintro rfl
          exact (List.nodup_cons.mp single).1 member
        have kept : Kept table.nextSession chain table.nextSession
            (Function.update chain uid (slot :: chain uid)) other := Chains.kept_push different
        exact later.loose other member user (kept.back user inside)
  · exact ⟨chain, later⟩

theorem built_initUtmpUser (uinfo : Fin size → UserInfo) :
    ∃ chain, Built (initUtmpUser uinfo : Table size maxUsers) chain [] := by
  have loop : ∀ (slots : List (Fin size)) (table : Table size maxUsers)
      (chain : Fin (maxUsers + 1) → List (Fin size)), slots.Nodup → Built table chain slots →
      ∃ chain', Built (slots.foldl (UtmpUser.enroll uinfo) table) chain' [] := by
    intro slots
    induction slots with
    | nil => exact fun table chain _single built => ⟨chain, built⟩
    | cons slot rest ih =>
        intro table chain single built
        obtain ⟨chain', next⟩ := built.enroll single uinfo
        exact ih _ chain' (List.nodup_cons.mp single).2 next
  exact loop _ _ _ (List.nodup_finRange size) (built_empty _)

theorem sound_start (owner : Fin size → Proc) (uinfo : Fin size → UserInfo) :
    ∃ chain, Sound owner (start Proc uinfo : State Proc size maxUsers) chain := by
  obtain ⟨chain, built⟩ : ∃ chain, Built (initUtmpUser uinfo : Table size maxUsers) chain [] :=
    built_initUtmpUser uinfo
  exact ⟨chain,
    { chains := built.chains
      owned := fun _ _ there => by cases there
      passes := fun _ _ there => by cases there
      slots := fun slot => ⟨fun _ _ there => (by cases there), fun _ => built.settled slot⟩
      free := fun _ _ there => by cases there }⟩

/-! ### Runs -/

theorem Sound.holdsSessions {owner : Fin size → Proc} {state : State Proc size maxUsers}
    {chain : Fin (maxUsers + 1) → List (Fin size)} (sound : Sound owner state chain)
    (idle : ∀ proc, state.stages proc = none) : state.shared.HoldsSessions := by
  have chains := sound.chains
  have settled : ∀ slot, Settled state.shared chain slot := fun slot =>
    sound.settled_of_idle (idle (owner slot)) rfl
  constructor
  · intro user nonzero
    refine ⟨chain user, chains.linked user, chains.single user, ?_⟩
    intro slot
    constructor
    · rintro ⟨member, unmarked⟩
      rcases settled slot with ⟨_, loose | marked⟩ | ⟨_, live⟩
      · exact absurd member (loose user)
      · rw [unmarked] at marked
        cases marked
      · exact chains.apart live.1 member
    · intro session
      rcases settled slot with ⟨zero, _⟩ | ⟨_, live⟩
      · exact absurd (session ▸ zero) nonzero
      · rw [session] at live
        exact live
  · intro left right different slots others inLeft inRight slot first second
    rw [inLeft.unique (chains.linked left)] at first
    rw [inRight.unique (chains.linked right)] at second
    exact different (chains.apart first second)

/-- Whenever no call is in progress, in every run in which slots are chosen a list only when
they are free, the lists hold exactly the sessions. -/
theorem holdsSessions_run [DecidableEq Proc] (owner : Fin size → Proc)
    (uinfo : Fin size → UserInfo) {actions : List (Action Proc size)}
    (meets : StepsMeet step (fun state action => Alternates owner state action ∧
      Reclaimed state action) (start Proc uinfo : State Proc size maxUsers) actions)
    (idle : ∀ proc, (run step (start Proc uinfo : State Proc size maxUsers) actions).stages proc =
      none) :
    (run step (start Proc uinfo : State Proc size maxUsers) actions).shared.HoldsSessions := by
  have kept : ∀ (state : State Proc size maxUsers) (action : Action Proc size),
      (∃ chain, Sound owner state chain) → Alternates owner state action ∧ Reclaimed state action →
      ∃ chain, Sound owner (step state action) chain := by
    rintro state action ⟨chain, sound⟩ ⟨alternates, reclaimed⟩
    exact sound.step_sound alternates reclaimed
  obtain ⟨chain, sound⟩ := invariant_run kept (sound_start owner uinfo) meets
  exact sound.holdsSessions idle

end Processes

def sharedRun : List (Action Bool 2) :=
  .add false 0 1 :: List.replicate 6 (.move false : Action Bool 2) ++
    .add true 1 1 :: List.replicate 4 (.move true : Action Bool 2) ++
    .remove false 0 1 :: List.replicate 3 (.move false : Action Bool 2) ++
    List.replicate 7 (.move true : Action Bool 2) ++
    List.replicate 4 (.move false : Action Bool 2) ++
    .add false 0 1 :: List.replicate 8 (.move false : Action Bool 2)

def slotOwner (slot : Fin 2) : Bool := slot = 1

theorem holdsSessions_shared :
    (run step (start Bool fun _ => ⟨0, 0⟩ : State Bool 2 1) sharedRun).shared.HoldsSessions :=
  holdsSessions_run slotOwner (fun _ => ⟨0, 0⟩) (by decide) (by decide)

/-- A pass has read the head of a list and its mark when another slot is put in front of it, so
its exchange of the head fails; it returns, its slot stays linked and goes to another user. -/
def missedHeadRun : List (Action Bool 2) :=
  .add false 0 1 :: List.replicate 6 (.move false : Action Bool 2) ++
    .add true 1 1 :: List.replicate 7 (.move true : Action Bool 2) ++
    .remove false 0 1 :: List.replicate 5 (.move false : Action Bool 2) ++
    .move true :: .move false ::
    .add false 0 2 :: List.replicate 6 (.move false : Action Bool 2)

theorem not_holdsSessions_missedHead :
    StepsMeet step (Alternates slotOwner) (start Bool fun _ => ⟨0, 0⟩ : State Bool 2 2)
        missedHeadRun ∧
      (∀ proc, (run step (start Bool fun _ => ⟨0, 0⟩ : State Bool 2 2) missedHeadRun).stages proc =
        none) ∧
      ¬(run step (start Bool fun _ => ⟨0, 0⟩ : State Bool 2 2)
        missedHeadRun).shared.HoldsSessions := by
  refine ⟨by decide, by decide, ?_⟩
  intro holds
  obtain ⟨slots, list, _single, exactly⟩ := holds.lists 1 (by decide)
  have whole : (run step (start Bool fun _ => ⟨0, 0⟩ : State Bool 2 2)
      missedHeadRun).shared.ListOf 1 [1, 0] :=
    Linked.link (Linked.link Linked.done)
  have member : (0 : Fin 2) ∈ slots := by
    rw [list.unique whole]
    decide
  have session := (exactly 0).mp ⟨member, by decide⟩
  exact absurd session (by decide)

end Pttbbs.Common.UtmpUser
