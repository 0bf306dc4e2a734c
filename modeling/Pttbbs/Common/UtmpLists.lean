/-
What the lists of sessions hold, whatever the order of the steps.

A pass over a list only takes marked slots out, because what it has read of a marked slot
stays true until the slot is put into a list again.  So the lists hold the sessions in every
run in which a slot is put into a list only when no list leads to it any more and no pass
still has it in a local variable.
-/

import Pttbbs.Common.UtmpUser
import Mathlib.Data.Fintype.Card

namespace Pttbbs.Common.UtmpUser

open Pttbbs.Lib

variable {size maxUsers : Nat}

/-! ### What a pass knows -/

section Passes

variable {link link' : Fin size → Link (Fin size)}
  {chain chain' : Fin (maxUsers + 1) → List (Fin size)}

def CleanOk (link : Fin size → Link (Fin size)) (chain : Fin (maxUsers + 1) → List (Fin size)) :
    CleanStage size → Prop
  | .loadHead _ => True
  | .loadHeadNext _ head => Tied link chain head
  | .dropHead head => ∃ target, link head = ⟨target, true⟩ ∧ (target = none ∨ target = some head)
  | .skipHead _ head next => link head = ⟨some next, true⟩
  | .loadPrevNext _ _ prev => Tied link chain prev
  | .loadCurrNext _ _ prev curr => Tied link chain prev ∧ Tied link chain curr
  | .unlink _ _ prev curr succ => Tied link chain prev ∧ ∃ target, link curr = ⟨target, true⟩ ∧
      succ = if target = some curr ∨ target = some prev then none else target

structure Steady (link : Fin size → Link (Fin size))
    (chain : Fin (maxUsers + 1) → List (Fin size)) (link' : Fin size → Link (Fin size))
    (chain' : Fin (maxUsers + 1) → List (Fin size)) (slot : Fin size) : Prop where
  tied : Tied link chain slot → Tied link' chain' slot
  frozen : (link slot).deleted = true → link' slot = link slot

theorem Steady.of_kept {slot : Fin size} (kept : Kept link chain link' chain' slot) :
    Steady link chain link' chain' slot :=
  ⟨kept.tied, kept.frozen⟩

theorem Steady.marked {slot : Fin size} {target : Option (Fin size)}
    (steady : Steady link chain link' chain' slot) (marked : link slot = ⟨target, true⟩) :
    link' slot = ⟨target, true⟩ := by
  rw [steady.frozen (by rw [marked]), marked]

theorem CleanOk.steady {stage : CleanStage size} (ok : CleanOk link chain stage)
    (steady : ∀ slot ∈ stage.held, Steady link chain link' chain' slot) :
    CleanOk link' chain' stage := by
  cases stage with
  | loadHead attempts => trivial
  | loadHeadNext attempts head => exact (steady head (List.mem_singleton_self _)).tied ok
  | dropHead head =>
      obtain ⟨target, marked, last⟩ := ok
      exact ⟨target, (steady head (List.mem_singleton_self _)).marked marked, last⟩
  | skipHead attempts head next => exact (steady head (List.mem_singleton_self _)).marked ok
  | loadPrevNext attempts count prev => exact (steady prev (List.mem_singleton_self _)).tied ok
  | loadCurrNext attempts count prev curr =>
      have second := steady curr (List.mem_cons_of_mem _ (List.mem_singleton_self _))
      exact ⟨(steady prev List.mem_cons_self).tied ok.1, second.tied ok.2⟩
  | unlink attempts count prev curr succ =>
      obtain ⟨tied, target, marked, behind⟩ := ok
      have second := steady curr (List.mem_cons_of_mem _ (List.mem_singleton_self _))
      exact ⟨(steady prev List.mem_cons_self).tied tied, target, second.marked marked, behind⟩

theorem tied_of_mem {key : Fin (maxUsers + 1)} {slot : Fin size} (member : slot ∈ chain key) :
    Tied link chain slot :=
  Or.inl ⟨key, member⟩

theorem mem_of_tied {slot : Fin size} (tied : Tied link chain slot)
    (unmarked : (link slot).deleted = false) : ∃ key, slot ∈ chain key := by
  rcases tied with member | deleted
  · exact member
  · rw [unmarked] at deleted
    cases deleted

end Passes

structure Cleaned (table : Table size maxUsers) (chain : Fin (maxUsers + 1) → List (Fin size))
    (held : List (Fin size)) (after : Table size maxUsers)
    (chain' : Fin (maxUsers + 1) → List (Fin size)) (next : Option (CleanStage size)) : Prop where
  chains : Chains after.userHead after.nextSession chain'
  kept : ∀ slot, Kept table.nextSession chain after.nextSession chain' slot
  sessions : after.sessionUser = table.sessionUser
  ok : ∀ stage, next = some stage → CleanOk after.nextSession chain' stage
  reached : ∀ stage, next = some stage → ∀ slot ∈ stage.held,
    slot ∈ held ∨ ∃ key, slot ∈ chain key

section Cleaning

variable {table : Table size maxUsers} {chain : Fin (maxUsers + 1) → List (Fin size)}

theorem Cleaned.read (chains : Chains table.userHead table.nextSession chain)
    {held : List (Fin size)} {next : Option (CleanStage size)}
    (ok : ∀ stage, next = some stage → CleanOk table.nextSession chain stage ∧
      ∀ slot ∈ stage.held, slot ∈ held ∨ ∃ key, slot ∈ chain key) :
    Cleaned table chain held table chain next :=
  { chains := chains
    kept := fun slot => Kept.refl slot
    sessions := rfl
    ok := fun stage there => (ok stage there).1
    reached := fun stage there => (ok stage there).2 }

theorem attempt_held {attempts : Nat} {stage : CleanStage size}
    (there : CleanStage.attempt attempts = some stage) : stage = .loadHead attempts := by
  unfold CleanStage.attempt at there
  split at there
  · exact (Option.some.inj there).symm
  · cases there

theorem walk_held {attempts count : Nat} {prev : Fin size} {stage : CleanStage size}
    (there : CleanStage.walk attempts count prev = some stage) :
    stage = .loadPrevNext attempts count prev := by
  unfold CleanStage.walk at there
  split at there
  · exact (Option.some.inj there).symm
  · cases there

theorem attempt_ok {held : List (Fin size)} {attempts : Nat} {stage : CleanStage size}
    (there : CleanStage.attempt attempts = some stage) :
    CleanOk table.nextSession chain stage ∧
      ∀ slot ∈ stage.held, slot ∈ held ∨ ∃ key, slot ∈ chain key := by
  rw [attempt_held there]
  exact ⟨trivial, nofun⟩

theorem walk_ok {held : List (Fin size)} {attempts count : Nat} {prev : Fin size}
    {stage : CleanStage size} (tied : Tied table.nextSession chain prev) (member : prev ∈ held)
    (there : CleanStage.walk attempts count prev = some stage) :
    CleanOk table.nextSession chain stage ∧
      ∀ slot ∈ stage.held, slot ∈ held ∨ ∃ key, slot ∈ chain key := by
  rw [walk_held there]
  refine ⟨tied, fun slot here => Or.inl ?_⟩
  rw [List.mem_singleton.mp here]
  exact member

theorem exchangeHead_cleaned (chains : Chains table.userHead table.nextSession chain)
    {user : Fin (maxUsers + 1)} {head : Fin size} {target : Option (Fin size)}
    (marked : table.nextSession head = ⟨target, true⟩) {held : List (Fin size)}
    {next : Option (CleanStage size)}
    (restart : ∀ stage, next = some stage → ∃ attempts, stage = .loadHead attempts) :
    ∃ chain', Cleaned table chain held (table.exchangeHead user (some head) target).1 chain'
      next := by
  have ok : ∀ (links : Fin size → Link (Fin size)) (others : Fin (maxUsers + 1) → List (Fin size))
      (stage : CleanStage size), next = some stage → CleanOk links others stage ∧
      ∀ slot ∈ stage.held, slot ∈ held ∨ ∃ key, slot ∈ chain key := by
    intro links others stage there
    obtain ⟨attempts, rfl⟩ := restart stage there
    exact ⟨trivial, nofun⟩
  unfold Table.exchangeHead
  split
  · rename_i first
    have popped := chains.pop first
    rw [marked] at popped
    exact ⟨Function.update chain user ((chain user).erase head),
      { chains := popped
        kept := fun slot => Chains.kept_erase (by rw [marked]) slot
        sessions := rfl
        ok := fun stage there => (ok _ _ stage there).1
        reached := fun stage there =>
          (ok table.nextSession chain stage there).2 }⟩
  · exact ⟨chain, Cleaned.read chains (ok _ _)⟩

theorem unlink_cleaned (chains : Chains table.userHead table.nextSession chain)
    {attempts count : Nat} {prev curr : Fin size} {succ : Option (Fin size)}
    {user : Fin (maxUsers + 1)}
    (ok : CleanOk table.nextSession chain (.unlink attempts count prev curr succ)) :
    ∃ chain', Cleaned table chain [prev, curr]
      (cleanMarkedNodes user table (.unlink attempts count prev curr succ)).1 chain'
      (cleanMarkedNodes user table (.unlink attempts count prev curr succ)).2 := by
  obtain ⟨tied, target, marked, behind⟩ := ok
  unfold cleanMarkedNodes Table.exchangeNext
  dsimp only
  split
  · rename_i expected
    have unmarked : (table.nextSession prev).deleted = false := by rw [expected]
    have leads : (table.nextSession prev).target = some curr := by rw [expected]
    obtain ⟨key, member⟩ := mem_of_tied tied unmarked
    have currMember := chains.target_mem member leads
    -- A link in a list leads neither to its own slot nor back, so the target is taken as it is.
    have notSelf := chains.target_ne currMember
    have notBack := chains.second_target_ne member leads
    rw [marked] at notSelf notBack
    have same : succ = target := by
      rw [behind, if_neg (by rintro (self | back); exact notSelf self; exact notBack back)]
    have currMarked : (table.nextSession curr).deleted = true := by rw [marked]
    have unlinked := chains.unlink member leads false
    rw [marked] at unlinked
    have kept : ∀ slot, Kept table.nextSession chain
        (Function.update table.nextSession prev ⟨succ, false⟩)
        (Function.update chain key ((chain key).erase curr)) slot :=
      fun slot => Chains.kept_unlink member unmarked rfl currMarked slot
    refine ⟨Function.update chain key ((chain key).erase curr),
      { chains := by rw [same]; exact unlinked
        kept := kept
        sessions := rfl
        ok := fun stage there => ?_
        reached := fun stage there => ?_ }⟩
    · rw [walk_held there]
      exact (kept prev).tied tied
    · rw [walk_held there]
      intro slot here
      exact Or.inl (List.mem_singleton.mp here ▸ List.mem_cons_self)
  · exact ⟨chain, Cleaned.read chains fun stage there => attempt_ok there⟩

theorem cleanMarkedNodes_cleaned (user : Fin (maxUsers + 1))
    (chains : Chains table.userHead table.nextSession chain) {stage : CleanStage size}
    (ok : CleanOk table.nextSession chain stage) :
    ∃ chain', Cleaned table chain stage.held (cleanMarkedNodes user table stage).1 chain'
      (cleanMarkedNodes user table stage).2 := by
  cases stage with
  | loadHead attempts =>
      refine ⟨chain, Cleaned.read chains fun stage there => ?_⟩
      obtain ⟨head, first, rfl⟩ := Option.map_eq_some_iff.mp there
      obtain ⟨rest, whole, _⟩ := chains.head_mem first
      have member : head ∈ chain user := by
        rw [whole]
        exact List.mem_cons_self
      refine ⟨tied_of_mem member, fun slot here => Or.inr ⟨user, ?_⟩⟩
      rw [List.mem_singleton.mp here]
      exact member
  | loadHeadNext attempts head =>
      have marks : ∀ target, (table.nextSession head).deleted = true →
          (table.nextSession head).target = target → table.nextSession head = ⟨target, true⟩ := by
        rintro target deleted rfl
        rw [← deleted]
      have held : ∀ slot, slot ∈ [head] → slot ∈ [head] ∨ ∃ key, slot ∈ chain key :=
        fun slot here => Or.inl here
      unfold cleanMarkedNodes
      dsimp only
      split
      · rename_i deleted
        split
        · rename_i last
          refine ⟨chain, Cleaned.read chains fun stage there => ?_⟩
          cases there
          exact ⟨⟨none, marks _ deleted last, Or.inl rfl⟩, held⟩
        · rename_i next target
          split
          · rename_i self
            refine ⟨chain, Cleaned.read chains fun stage there => ?_⟩
            cases there
            exact ⟨⟨some next, marks _ deleted target, Or.inr (by rw [self])⟩, held⟩
          · refine ⟨chain, Cleaned.read chains fun stage there => ?_⟩
            cases there
            exact ⟨marks _ deleted target, held⟩
      · exact ⟨chain, Cleaned.read chains fun stage there =>
          walk_ok ok List.mem_cons_self there⟩
  | dropHead head =>
      obtain ⟨target, marked, last⟩ := ok
      by_cases first : table.userHead user = some head
      · -- The first slot of a list is not led to by its own link, so nothing comes after it.
        obtain ⟨rest, whole, _⟩ := chains.head_mem first
        have member : head ∈ chain user := by
          rw [whole]
          exact List.mem_cons_self
        have notSelf := chains.target_ne member
        rw [marked] at notSelf
        rw [last.resolve_right notSelf] at marked
        exact exchangeHead_cleaned chains marked nofun
      · unfold cleanMarkedNodes Table.exchangeHead
        dsimp only
        rw [if_neg first]
        exact ⟨chain, Cleaned.read chains nofun⟩
  | skipHead attempts head next =>
      exact exchangeHead_cleaned chains ok fun stage there => ⟨_, attempt_held there⟩
  | loadPrevNext attempts count prev =>
      unfold cleanMarkedNodes
      dsimp only
      split
      · exact ⟨chain, Cleaned.read chains fun stage there => attempt_ok there⟩
      · rename_i unmarked
        split
        · exact ⟨chain, Cleaned.read chains nofun⟩
        · rename_i curr target
          split
          · exact ⟨chain, Cleaned.read chains nofun⟩
          · obtain ⟨key, member⟩ := mem_of_tied ok (by simpa using unmarked)
            have currMember := chains.target_mem member target
            refine ⟨chain, Cleaned.read chains fun stage there => ?_⟩
            cases there
            refine ⟨⟨ok, tied_of_mem currMember⟩, fun slot here => ?_⟩
            rcases List.mem_cons.mp here with rfl | second
            · exact Or.inl List.mem_cons_self
            · exact Or.inr ⟨key, List.mem_singleton.mp second ▸ currMember⟩
  | loadCurrNext attempts count prev curr =>
      unfold cleanMarkedNodes
      dsimp only
      split
      · rename_i deleted
        refine ⟨chain, Cleaned.read chains fun stage there => ?_⟩
        cases there
        refine ⟨⟨ok.1, (table.nextSession curr).target, ?_, rfl⟩, fun slot here => Or.inl here⟩
        rw [← deleted]
      · exact ⟨chain, Cleaned.read chains fun stage there =>
          walk_ok ok.2 (List.mem_cons_of_mem _ (List.mem_singleton_self _)) there⟩
  | unlink attempts count prev curr succ => exact unlink_cleaned chains ok

end Cleaning

/-! ### What is known of a slot -/

section Slots

variable {table after : Table size maxUsers} {chain chain' : Fin (maxUsers + 1) → List (Fin size)}
  {slot : Fin size} {user : Fin (maxUsers + 1)}

def Off (table : Table size maxUsers) (chain : Fin (maxUsers + 1) → List (Fin size))
    (slot : Fin size) : Prop :=
  Loose chain slot ∨ (table.nextSession slot).deleted = true

def Live (table : Table size maxUsers) (chain : Fin (maxUsers + 1) → List (Fin size))
    (user : Fin (maxUsers + 1)) (slot : Fin size) : Prop :=
  slot ∈ chain user ∧ (table.nextSession slot).deleted = false

def Settled (table : Table size maxUsers) (chain : Fin (maxUsers + 1) → List (Fin size))
    (slot : Fin size) : Prop :=
  table.sessionUser slot = 0 ∧ Off table chain slot ∨
    table.sessionUser slot ≠ 0 ∧ Live table chain (table.sessionUser slot) slot

def RemoveOk (table : Table size maxUsers) (chain : Fin (maxUsers + 1) → List (Fin size))
    (uslot : Fin size) (unum : Fin (maxUsers + 1)) : RemoveStage size → Prop
  | .clearUser => table.sessionUser uslot = unum ∧ Live table chain unum uslot
  | .loadNext | .markNext _ => table.sessionUser uslot = 0 ∧ Live table chain unum uslot
  | .clean _ => table.sessionUser uslot = 0 ∧ (table.nextSession uslot).deleted = true

def AddOk (table : Table size maxUsers) (chain : Fin (maxUsers + 1) → List (Fin size))
    (uslot : Fin size) (unum : Fin (maxUsers + 1)) : AddStage size maxUsers → Prop
  | .removeOld _ _ => False
  | .loadUser | .storeUser => table.sessionUser uslot = 0 ∧ Off table chain uslot
  | .clean _ | .loadHead => table.sessionUser uslot = unum ∧ Off table chain uslot
  | .storeNext _ => table.sessionUser uslot = unum ∧ Loose chain uslot
  | .swapHead oldHead => table.sessionUser uslot = unum ∧ Loose chain uslot ∧
      table.nextSession uslot = ⟨oldHead, false⟩

def WorkOk (table : Table size maxUsers) (chain : Fin (maxUsers + 1) → List (Fin size))
    (uslot : Fin size) (unum : Fin (maxUsers + 1)) : Work size maxUsers → Prop
  | .add stage => AddOk table chain uslot unum stage
  | .remove stage => RemoveOk table chain uslot unum stage

structure Untouched (table : Table size maxUsers)
    (chain : Fin (maxUsers + 1) → List (Fin size)) (after : Table size maxUsers)
    (chain' : Fin (maxUsers + 1) → List (Fin size)) (slot : Fin size) : Prop where
  kept : Kept table.nextSession chain after.nextSession chain' slot
  session : after.sessionUser slot = table.sessionUser slot

namespace Untouched

section

variable (same : Untouched table chain after chain' slot)

include same

theorem off (off : Off table chain slot) :
    Off after chain' slot := by
  rcases off with loose | marked
  · exact Or.inl (same.kept.stays_loose loose)
  · right
    rw [same.kept.deleted, marked]

theorem live (live : Live table chain user slot) :
    Live after chain' user slot := by
  refine ⟨same.kept.live live.2 user live.1, ?_⟩
  rw [same.kept.deleted, live.2]

theorem settled (settled : Settled table chain slot) : Settled after chain' slot := by
  unfold Settled
  rw [same.session]
  rcases settled with ⟨none, off⟩ | ⟨some, live⟩
  · exact Or.inl ⟨none, same.off off⟩
  · exact Or.inr ⟨some, same.live live⟩

theorem removeOk {stage : RemoveStage size}
    (ok : RemoveOk table chain slot user stage) : RemoveOk after chain' slot user stage := by
  cases stage with
  | clearUser => exact ⟨same.session.trans ok.1, same.live ok.2⟩
  | loadNext => exact ⟨same.session.trans ok.1, same.live ok.2⟩
  | markNext nextVal => exact ⟨same.session.trans ok.1, same.live ok.2⟩
  | clean stage => exact ⟨same.session.trans ok.1, same.kept.deleted.trans ok.2⟩

theorem addOk {stage : AddStage size maxUsers}
    (ok : AddOk table chain slot user stage) : AddOk after chain' slot user stage := by
  cases stage with
  | removeOld oldUid stage => exact ok
  | loadUser => exact ⟨same.session.trans ok.1, same.off ok.2⟩
  | storeUser => exact ⟨same.session.trans ok.1, same.off ok.2⟩
  | clean stage => exact ⟨same.session.trans ok.1, same.off ok.2⟩
  | loadHead => exact ⟨same.session.trans ok.1, same.off ok.2⟩
  | storeNext oldHead => exact ⟨same.session.trans ok.1, same.kept.stays_loose ok.2⟩
  | swapHead oldHead =>
      obtain ⟨session, loose, next⟩ := ok
      exact ⟨same.session.trans session, same.kept.stays_loose loose,
        (same.kept.loose loose).trans next⟩

theorem workOk {work : Work size maxUsers}
    (ok : WorkOk table chain slot user work) : WorkOk after chain' slot user work := by
  cases work with
  | add stage => exact same.addOk ok
  | remove stage => exact same.removeOk ok

end

end Untouched

end Slots

/-! ### One access -/

namespace Work

def pass? : Work size maxUsers → Option (CleanStage size)
  | .add (.clean stage) => some stage
  | .add (.removeOld _ (.clean stage)) => some stage
  | .remove (.clean stage) => some stage
  | _ => none

def reclaims : Work size maxUsers → Bool
  | .add (.storeNext _) => true
  | .add (.swapHead _) => true
  | _ => false

theorem held_eq (work : Work size maxUsers) :
    work.held = (work.pass?.map CleanStage.held).getD [] := by
  rcases work with stage | stage
  · cases stage with
    | removeOld oldUid stage => cases stage <;> rfl
    | _ => rfl
  · cases stage <;> rfl

theorem pass?_afterClean (next : Option (CleanStage size)) :
    (Work.add (.afterClean next) : Work size maxUsers).pass? = next := by
  cases next <;> rfl

end Work

structure Continues (chain : Fin (maxUsers + 1) → List (Fin size)) (uslot : Fin size)
    (unum : Fin (maxUsers + 1)) (work : Work size maxUsers) (after : Table size maxUsers)
    (chain' : Fin (maxUsers + 1) → List (Fin size)) (next : Work size maxUsers) : Prop where
  workOk : WorkOk after chain' uslot unum next
  passOk : ∀ stage, next.pass? = some stage → CleanOk after.nextSession chain' stage
  reached : ∀ slot ∈ next.held, slot ∈ work.held ∨ ∃ key, slot ∈ chain key
  reclaims : next.reclaims = true → work.reclaims = true ∨ work = .add .loadHead

structure Accessed (table : Table size maxUsers)
    (chain : Fin (maxUsers + 1) → List (Fin size)) (uslot : Fin size)
    (unum : Fin (maxUsers + 1)) (work : Work size maxUsers) (after : Table size maxUsers)
    (chain' : Fin (maxUsers + 1) → List (Fin size)) (next : Option (Work size maxUsers)) :
    Prop where
  chains : Chains after.userHead after.nextSession chain'
  others : ∀ slot, slot ≠ uslot → Untouched table chain after chain' slot
  steady : ∀ slot, (work.reclaims = true → slot ≠ uslot) →
    Steady table.nextSession chain after.nextSession chain' slot
  ends : next = none → Settled after chain' uslot
  continues : ∀ work', next = some work' → Continues chain uslot unum work after chain' work'

section Accesses

variable {table after : Table size maxUsers} {chain chain' : Fin (maxUsers + 1) → List (Fin size)}
  {uslot : Fin size} {unum : Fin (maxUsers + 1)} {work next : Work size maxUsers}

theorem Untouched.refl (slot : Fin size) : Untouched table chain table chain slot :=
  ⟨Kept.refl slot, rfl⟩

theorem Continues.outside (ok : WorkOk after chain' uslot unum next) (outside : next.pass? = none)
    (reclaims : next.reclaims = true → work.reclaims = true ∨ work = .add .loadHead) :
    ∀ work', some next = some work' → Continues chain uslot unum work after chain' work' := by
  intro work' there
  cases there
  refine ⟨ok, ?_, ?_, reclaims⟩
  · intro stage inside
    rw [outside] at inside
    cases inside
  · intro slot held
    rw [Work.held_eq, outside] at held
    cases held

theorem Accessed.read (chains : Chains table.userHead table.nextSession chain)
    (ok : WorkOk table chain uslot unum next) (outside : next.pass? = none)
    (reclaims : next.reclaims = true → work.reclaims = true ∨ work = .add .loadHead) :
    Accessed table chain uslot unum work table chain (some next) :=
  { chains := chains
    others := fun slot _ => Untouched.refl slot
    steady := fun slot _ => Steady.of_kept (Kept.refl slot)
    ends := nofun
    continues := Continues.outside ok outside reclaims }

theorem Accessed.storeUser (chains : Chains table.userHead table.nextSession chain)
    (user : Fin (maxUsers + 1))
    (continues : Continues chain uslot unum work (table.storeUser uslot user) chain next) :
    Accessed table chain uslot unum work (table.storeUser uslot user) chain (some next) :=
  { chains := chains
    others := fun slot different => ⟨Kept.refl slot, Function.update_of_ne different _ _⟩
    steady := fun slot _ => Steady.of_kept (Kept.refl slot)
    ends := nofun
    continues := fun _ there => Option.some.inj there ▸ continues }

theorem Accessed.cleaned {stage : CleanStage size} {next : Option (CleanStage size)}
    {behind : Option (Work size maxUsers)} (inside : work.pass? = some stage)
    (cleaned : Cleaned table chain stage.held after chain' next)
    (ends : behind = none → Settled table chain uslot)
    (continues : ∀ work', behind = some work' → WorkOk table chain uslot unum work' ∧
      work'.pass? = next ∧ work'.reclaims = false) :
    Accessed table chain uslot unum work after chain' behind := by
  have same : ∀ slot, Untouched table chain after chain' slot := fun slot =>
    ⟨cleaned.kept slot, by rw [cleaned.sessions]⟩
  refine
    { chains := cleaned.chains
      others := fun slot _ => same slot
      steady := fun slot _ => Steady.of_kept (cleaned.kept slot)
      ends := fun finished => (same uslot).settled (ends finished)
      continues := ?_ }
  intro work' there
  obtain ⟨ok, still, notReclaims⟩ := continues work' there
  refine ⟨(same uslot).workOk ok, ?_, ?_, ?_⟩
  · intro stage' inside'
    exact cleaned.ok stage' (still ▸ inside')
  · intro slot held
    rw [Work.held_eq, still] at held
    rw [Work.held_eq, inside]
    cases next with
    | none => cases held
    | some stage' => exact cleaned.reached stage' rfl slot held
  · rw [notReclaims]
    nofun

theorem markNext_accessed (chains : Chains table.userHead table.nextSession chain)
    {nextVal : Link (Fin size)} (ok : RemoveOk table chain uslot unum (.markNext nextVal)) :
    Accessed table chain uslot unum (.remove (.markNext nextVal))
      (removeFromUtmpUser uslot unum table (.markNext nextVal)).1 chain
      ((removeFromUtmpUser uslot unum table (.markNext nextVal)).2.map .remove) := by
  obtain ⟨session, live⟩ := ok
  unfold removeFromUtmpUser Table.exchangeNext
  dsimp only
  split
  · rename_i expected
    subst expected
    have marked : ((Function.update table.nextSession uslot
        { table.nextSession uslot with deleted := true }) uslot).deleted = true := by
      rw [Function.update_self]
    refine
      { chains := chains.mark uslot
        others := fun slot different => ⟨Chains.kept_store _ different, rfl⟩
        steady := ?_
        ends := fun _ => Or.inl ⟨session, Or.inr marked⟩
        continues := ?_ }
    · intro slot _free
      by_cases same : slot = uslot
      · subst same
        refine ⟨fun _ => Or.inr marked, ?_⟩
        intro deleted
        rw [live.2] at deleted
        cases deleted
      · exact Steady.of_kept (Chains.kept_store _ same)
    · intro work' there
      rw [if_pos rfl, Option.map_map] at there
      obtain ⟨stage, first, rfl⟩ := Option.map_eq_some_iff.mp there
      rw [attempt_held first]
      refine ⟨⟨session, marked⟩, ?_, nofun, nofun⟩
      rintro _ inside
      cases inside
      trivial
  · exact Accessed.read chains ⟨session, live⟩ rfl nofun

theorem removeFromUtmpUser_accessed (chains : Chains table.userHead table.nextSession chain)
    {stage : RemoveStage size} (ok : RemoveOk table chain uslot unum stage)
    (passOk : ∀ inner, (Work.remove stage : Work size maxUsers).pass? = some inner →
      CleanOk table.nextSession chain inner) :
    ∃ chain', Accessed table chain uslot unum (.remove stage)
      (removeFromUtmpUser uslot unum table stage).1 chain'
      ((removeFromUtmpUser uslot unum table stage).2.map .remove) := by
  cases stage with
  | clearUser =>
      have known : WorkOk (table.storeUser uslot 0) chain uslot unum (.remove .loadNext) :=
        ⟨Function.update_self _ _ _, ok.2⟩
      exact ⟨chain, Accessed.storeUser chains 0 (Continues.outside known rfl nofun _ rfl)⟩
  | loadNext =>
      unfold removeFromUtmpUser
      dsimp only
      rw [if_neg (by rw [ok.2.2]; nofun)]
      exact ⟨chain, Accessed.read chains ok rfl nofun⟩
  | markNext nextVal => exact ⟨chain, markNext_accessed chains ok⟩
  | clean stage =>
      obtain ⟨chain', cleaned⟩ := cleanMarkedNodes_cleaned unum chains (passOk stage rfl)
      refine ⟨chain', Accessed.cleaned rfl cleaned ?_ ?_⟩
      · intro _finished
        exact Or.inl ⟨ok.1, Or.inr ok.2⟩
      · intro work' there
        unfold removeFromUtmpUser at there
        rw [Option.map_map] at there
        obtain ⟨inner, goes, rfl⟩ := Option.map_eq_some_iff.mp there
        exact ⟨ok, goes.symm, rfl⟩

theorem storeNext_accessed (chains : Chains table.userHead table.nextSession chain)
    {oldHead : Option (Fin size)} (ok : AddOk table chain uslot unum (.storeNext oldHead)) :
    Accessed table chain uslot unum (.add (.storeNext oldHead))
      (table.storeNext uslot ⟨oldHead, false⟩) chain (some (.add (.swapHead oldHead))) :=
  { chains := chains.store ok.2 _
    others := fun _ different => ⟨Chains.kept_store _ different, rfl⟩
    steady := fun _ free => Steady.of_kept (Chains.kept_store _ (free rfl))
    ends := nofun
    continues := Continues.outside ⟨ok.1, ok.2, Function.update_self _ _ _⟩ rfl
      fun _ => Or.inl rfl }

theorem swapHead_accessed (chains : Chains table.userHead table.nextSession chain)
    (user : unum ≠ 0) {oldHead : Option (Fin size)}
    (ok : AddOk table chain uslot unum (.swapHead oldHead)) :
    ∃ chain', Accessed table chain uslot unum (.add (.swapHead oldHead))
      (addToUtmpUser uslot unum table (.swapHead oldHead)).1 chain'
      ((addToUtmpUser uslot unum table (.swapHead oldHead)).2.map .add) := by
  obtain ⟨session, loose, next⟩ := ok
  unfold addToUtmpUser Table.exchangeHead
  dsimp only
  split
  · rename_i expected
    have target : (table.nextSession uslot).target = table.userHead unum := by
      rw [next, expected]
    refine ⟨Function.update chain unum (uslot :: chain unum),
      { chains := chains.push loose target
        others := fun _ different => ⟨Chains.kept_push different, rfl⟩
        steady := fun _ free => Steady.of_kept (Chains.kept_push (free rfl))
        ends := fun _ => Or.inr ?_
        continues := fun _ there => by cases there }⟩
    have unmarked : (table.nextSession uslot).deleted = false := by rw [next]
    refine ⟨?_, ?_, unmarked⟩
    · show table.sessionUser uslot ≠ 0
      rw [session]
      exact user
    · show uslot ∈ Function.update chain unum (uslot :: chain unum) (table.sessionUser uslot)
      rw [session, Function.update_self]
      exact List.mem_cons_self
  · exact ⟨chain, Accessed.read chains ⟨session, Or.inl loose⟩ rfl nofun⟩

theorem addOk_afterClean {next : Option (CleanStage size)}
    (session : table.sessionUser uslot = unum) (off : Off table chain uslot) :
    AddOk table chain uslot unum (.afterClean next) := by
  cases next <;> exact ⟨session, off⟩

theorem reclaims_afterClean (next : Option (CleanStage size)) :
    (Work.add (.afterClean next) : Work size maxUsers).reclaims = false := by
  cases next <;> rfl

theorem addToUtmpUser_accessed (chains : Chains table.userHead table.nextSession chain)
    (user : unum ≠ 0) {stage : AddStage size maxUsers}
    (ok : AddOk table chain uslot unum stage)
    (passOk : ∀ inner, (Work.add stage : Work size maxUsers).pass? = some inner →
      CleanOk table.nextSession chain inner)
    (reclaimed : stage = .loadHead → Loose chain uslot) :
    ∃ chain', Accessed table chain uslot unum (.add stage)
      (addToUtmpUser uslot unum table stage).1 chain'
      ((addToUtmpUser uslot unum table stage).2.map .add) := by
  cases stage with
  | removeOld oldUid stage => exact ok.elim
  | loadUser =>
      unfold addToUtmpUser
      dsimp only
      rw [if_neg (fun taken => taken ok.1)]
      exact ⟨chain, Accessed.read chains ok rfl nofun⟩
  | storeUser =>
      refine ⟨chain, Accessed.storeUser chains unum ?_⟩
      refine ⟨addOk_afterClean (Function.update_self _ _ _) ok.2, ?_, ?_, ?_⟩
      · intro stage inside
        rw [Work.pass?_afterClean] at inside
        rw [attempt_held inside]
        trivial
      · intro slot held
        rw [Work.held_eq, Work.pass?_afterClean] at held
        unfold CleanStage.attempt at held
        split at held <;> cases held
      · rw [reclaims_afterClean]
        nofun
  | clean stage =>
      obtain ⟨chain', cleaned⟩ := cleanMarkedNodes_cleaned unum chains (passOk stage rfl)
      refine ⟨chain', Accessed.cleaned rfl cleaned nofun ?_⟩
      intro work' there
      cases there
      exact ⟨addOk_afterClean ok.1 ok.2, Work.pass?_afterClean _, reclaims_afterClean _⟩
  | loadHead =>
      have loose := reclaimed rfl
      have other : table.userHead unum ≠ some uslot := by
        intro first
        obtain ⟨rest, whole, _⟩ := chains.head_mem first
        exact loose unum (by rw [whole]; exact List.mem_cons_self)
      unfold addToUtmpUser
      dsimp only
      rw [if_neg other]
      exact ⟨chain, Accessed.read chains ⟨ok.1, loose⟩ rfl fun _ => Or.inr rfl⟩
  | storeNext oldHead => exact ⟨chain, storeNext_accessed chains ok⟩
  | swapHead oldHead => exact swapHead_accessed chains user ok

end Accesses

end Pttbbs.Common.UtmpUser
