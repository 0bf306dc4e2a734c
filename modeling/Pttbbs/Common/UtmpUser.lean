/-
The lists of a user's sessions in shared memory.

Every user has a list of utmp slots, linked through a table of successors that all
processes change at once by atomic loads, stores and compare-and-swaps.  A slot leaves
a list in two steps: its own link is marked, and some later pass over the list leads the
link before it past it.  Every atomic access is one step here, so that the steps of
several calls can come in any order.
-/

import Mathlib.Algebra.GroupWithZero.Nat
import Mathlib.Data.Fintype.Basic
import Pttbbs.Lib.MarkedChains
import Pttbbs.Lib.Runs

namespace Pttbbs.Common.UtmpUser

open Pttbbs.Lib

scoped instance (priority := 2000) neZeroUsers (maxUsers : Nat) : NeZero (maxUsers + 1) :=
  ⟨Nat.succ_ne_zero maxUsers⟩

/-- The tables of `SHM->utmp_user`.  No slot (`-1`) is `none`, no user is 0, and a word of
`next_session` is its decoded slot with its deleted bit. -/
structure Table (size maxUsers : Nat) where
  userHead : Fin (maxUsers + 1) → Option (Fin size)
  nextSession : Fin size → Link (Fin size)
  sessionUser : Fin size → Fin (maxUsers + 1)

variable {size maxUsers : Nat}

namespace Table

/-- `__atomic_compare_exchange_n` on a list head. -/
def exchangeHead (table : Table size maxUsers) (user : Fin (maxUsers + 1))
    (expected desired : Option (Fin size)) : Table size maxUsers × Bool :=
  if table.userHead user = expected then
    ({ table with userHead := Function.update table.userHead user desired }, true)
  else (table, false)

/-- `__atomic_compare_exchange_n` on a link. -/
def exchangeNext (table : Table size maxUsers) (slot : Fin size)
    (expected desired : Link (Fin size)) : Table size maxUsers × Bool :=
  if table.nextSession slot = expected then
    ({ table with nextSession := Function.update table.nextSession slot desired }, true)
  else (table, false)

def storeNext (table : Table size maxUsers) (slot : Fin size) (value : Link (Fin size)) :
    Table size maxUsers :=
  { table with nextSession := Function.update table.nextSession slot value }

def storeUser (table : Table size maxUsers) (slot : Fin size) (user : Fin (maxUsers + 1)) :
    Table size maxUsers :=
  { table with sessionUser := Function.update table.sessionUser slot user }

end Table

/-! ### Passing over a list -/

inductive CleanStage (size : Nat)
  | loadHead (attempts : Nat)
  | loadHeadNext (attempts : Nat) (head : Fin size)
  | dropHead (head : Fin size)
  | skipHead (attempts : Nat) (head next : Fin size)
  | loadPrevNext (attempts count : Nat) (prev : Fin size)
  | loadCurrNext (attempts count : Nat) (prev curr : Fin size)
  | unlink (attempts count : Nat) (prev curr : Fin size) (succ : Option (Fin size))

namespace CleanStage

/-- The top of the outer loop; `none` where the function returns. -/
def attempt (attempts : Nat) : Option (CleanStage size) :=
  if attempts < size then some (.loadHead attempts) else none

def walk (attempts count : Nat) (prev : Fin size) : Option (CleanStage size) :=
  if count < size then some (.loadPrevNext attempts count prev) else none

def held : CleanStage size → List (Fin size)
  | .loadHead _ => []
  | .loadHeadNext _ head => [head]
  | .dropHead head => [head]
  | .skipHead _ head _ => [head]
  | .loadPrevNext _ _ prev => [prev]
  | .loadCurrNext _ _ prev curr => [prev, curr]
  | .unlink _ _ prev curr _ => [prev, curr]

end CleanStage

open CleanStage in
def cleanMarkedNodes (user : Fin (maxUsers + 1)) (table : Table size maxUsers) :
    CleanStage size → Table size maxUsers × Option (CleanStage size)
  | .loadHead attempts => (table, (table.userHead user).map (.loadHeadNext attempts))
  | .loadHeadNext attempts head =>
      if (table.nextSession head).deleted then
        match (table.nextSession head).target with
        | none => (table, some (.dropHead head))
        | some next =>
            if next = head then (table, some (.dropHead head))
            else (table, some (.skipHead attempts head next))
      else (table, walk attempts 0 head)
  -- the call ends here whether or not the head was still the one that was read
  | .dropHead head => ((table.exchangeHead user (some head) none).1, none)
  | .skipHead attempts head next =>
      ((table.exchangeHead user (some head) (some next)).1, attempt (attempts + 1))
  | .loadPrevNext attempts count prev =>
      if (table.nextSession prev).deleted then (table, attempt (attempts + 1))
      else
        match (table.nextSession prev).target with
        | none => (table, none)
        | some curr =>
            if curr = prev then (table, none)
            else (table, some (.loadCurrNext attempts count prev curr))
  | .loadCurrNext attempts count prev curr =>
      if (table.nextSession curr).deleted then
        let succ := (table.nextSession curr).target
        (table, some (.unlink attempts count prev curr
          (if succ = some curr ∨ succ = some prev then none else succ)))
      else (table, walk attempts (count + 1) curr)
  | .unlink attempts count prev curr succ =>
      let swapped := table.exchangeNext prev ⟨some curr, false⟩ ⟨succ, false⟩
      (swapped.1, if swapped.2 then walk attempts (count + 1) prev else attempt (attempts + 1))

/-! ### Leaving and joining a list -/

inductive RemoveStage (size : Nat)
  | clearUser
  | loadNext
  | markNext (nextVal : Link (Fin size))
  | clean (stage : CleanStage size)

def removeFromUtmpUser (uslot : Fin size) (unum : Fin (maxUsers + 1))
    (table : Table size maxUsers) :
    RemoveStage size → Table size maxUsers × Option (RemoveStage size)
  | .clearUser => (table.storeUser uslot 0, some .loadNext)
  | .loadNext =>
      if (table.nextSession uslot).deleted then (table, (CleanStage.attempt 0).map .clean)
      else (table, some (.markNext (table.nextSession uslot)))
  | .markNext nextVal =>
      let swapped := table.exchangeNext uslot nextVal { nextVal with deleted := true }
      (swapped.1, if swapped.2 then (CleanStage.attempt 0).map .clean else some .loadNext)
  | .clean stage =>
      let after := cleanMarkedNodes unum table stage
      (after.1, after.2.map .clean)

inductive AddStage (size maxUsers : Nat)
  | loadUser
  | removeOld (oldUid : Fin (maxUsers + 1)) (stage : RemoveStage size)
  | storeUser
  | clean (stage : CleanStage size)
  | loadHead
  | storeNext (oldHead : Option (Fin size))
  | swapHead (oldHead : Option (Fin size))

namespace AddStage

def afterRemove (oldUid : Fin (maxUsers + 1)) :
    Option (RemoveStage size) → AddStage size maxUsers
  | some stage => .removeOld oldUid stage
  | none => .storeUser

def afterClean : Option (CleanStage size) → AddStage size maxUsers
  | some stage => .clean stage
  | none => .loadHead

end AddStage

def addToUtmpUser (uslot : Fin size) (unum : Fin (maxUsers + 1)) (table : Table size maxUsers) :
    AddStage size maxUsers → Table size maxUsers × Option (AddStage size maxUsers)
  | .loadUser =>
      if table.sessionUser uslot ≠ 0 then
        (table, some (.removeOld (table.sessionUser uslot) .clearUser))
      else (table, some .storeUser)
  | .removeOld oldUid stage =>
      let after := removeFromUtmpUser uslot oldUid table stage
      (after.1, some (.afterRemove oldUid after.2))
  | .storeUser => (table.storeUser uslot unum, some (.afterClean (CleanStage.attempt 0)))
  | .clean stage =>
      let after := cleanMarkedNodes unum table stage
      (after.1, some (.afterClean after.2))
  | .loadHead =>
      if table.userHead unum = some uslot then (table, none)
      else (table, some (.storeNext (table.userHead unum)))
  | .storeNext oldHead => (table.storeNext uslot ⟨oldHead, false⟩, some (.swapHead oldHead))
  | .swapHead oldHead =>
      let swapped := table.exchangeHead unum oldHead (some uslot)
      (swapped.1, if swapped.2 then none else some .loadHead)

/-! ### Processes -/

inductive Work (size maxUsers : Nat)
  | add (stage : AddStage size maxUsers)
  | remove (stage : RemoveStage size)

structure Call (size maxUsers : Nat) where
  uslot : Fin size
  unum : Fin (maxUsers + 1)
  work : Work size maxUsers

def RemoveStage.held : RemoveStage size → List (Fin size)
  | .clean stage => stage.held
  | _ => []

def AddStage.held : AddStage size maxUsers → List (Fin size)
  | .removeOld _ stage => stage.held
  | .clean stage => stage.held
  | _ => []

def Work.held : Work size maxUsers → List (Fin size)
  | .add stage => stage.held
  | .remove stage => stage.held

/-- The next access of a process; nothing while no call is in progress. -/
def access (table : Table size maxUsers) :
    Option (Call size maxUsers) → Table size maxUsers × Option (Call size maxUsers)
  | none => (table, none)
  | some ⟨uslot, unum, .add stage⟩ =>
      let after := addToUtmpUser uslot unum table stage
      (after.1, after.2.map fun stage => ⟨uslot, unum, .add stage⟩)
  | some ⟨uslot, unum, .remove stage⟩ =>
      let after := removeFromUtmpUser uslot unum table stage
      (after.1, after.2.map fun stage => ⟨uslot, unum, .remove stage⟩)

/-- The users that `unum <= 0 || unum > MAX_USERS` lets through. -/
def userOf? (unum : Int) : Option (Fin (maxUsers + 1)) :=
  if h : 0 < unum ∧ unum ≤ maxUsers then some ⟨unum.toNat, by omega⟩ else none

inductive Action (Proc : Type) (size : Nat)
  | add (proc : Proc) (uslot : Fin size) (unum : Int)
  | remove (proc : Proc) (uslot : Fin size) (unum : Int)
  | move (proc : Proc)

section Processes

variable {Proc : Type} [DecidableEq Proc]

abbrev State (Proc : Type) (size maxUsers : Nat) : Type :=
  Threads Proc (Table size maxUsers) (Option (Call size maxUsers))

/-- A call begins; one for a user that does not exist returns at once. -/
def beginCall (state : State Proc size maxUsers) (proc : Proc) (uslot : Fin size) (unum : Int)
    (work : Work size maxUsers) : State Proc size maxUsers :=
  match userOf? unum with
  | none => state
  | some user =>
      { state with stages := Function.update state.stages proc (some ⟨uslot, user, work⟩) }

def step (state : State Proc size maxUsers) : Action Proc size → State Proc size maxUsers
  | .add proc uslot unum => beginCall state proc uslot unum (.add .loadUser)
  | .remove proc uslot unum => beginCall state proc uslot unum (.remove .clearUser)
  | .move proc => serve (fun _ => access) state proc

/-- Every process works on slots of its own, one call at a time, and adds and removes each
of them in turn. -/
def Alternates (owner : Fin size → Proc) (state : State Proc size maxUsers) :
    Action Proc size → Prop
  | .add proc uslot _ =>
      state.stages proc = none ∧ owner uslot = proc ∧ state.shared.sessionUser uslot = 0
  | .remove proc uslot unum =>
      state.stages proc = none ∧ owner uslot = proc ∧
        ((state.shared.sessionUser uslot : Nat) : Int) = unum
  | .move _ => True

end Processes

/-! ### The table at the start -/

structure UserInfo where
  pid : Int
  uid : Int

def emptyTable : Table size maxUsers :=
  { userHead := fun _ => none
    nextSession := fun _ => ⟨none, false⟩
    sessionUser := fun _ => 0 }

/-- One turn of the loop of `init_utmp_user`. -/
def enroll (uinfo : Fin size → UserInfo) (table : Table size maxUsers) (slot : Fin size) :
    Table size maxUsers :=
  if (uinfo slot).pid > 0 then
    match userOf? (uinfo slot).uid with
    | none => table
    | some uid =>
        { userHead := Function.update table.userHead uid (some slot)
          nextSession := Function.update table.nextSession slot ⟨table.userHead uid, false⟩
          sessionUser := Function.update table.sessionUser slot uid }
  else table

def initUtmpUser (uinfo : Fin size → UserInfo) : Table size maxUsers :=
  (List.finRange size).foldl (enroll uinfo) emptyTable

/-- No call is in progress on the table that was built from the sessions found. -/
def start (Proc : Type) (uinfo : Fin size → UserInfo) : State Proc size maxUsers :=
  { shared := initUtmpUser uinfo, stages := fun _ => none }

/-! ### What the lists are for -/

/-- The list of a user: the slots that following the links from its head visits. -/
def Table.ListOf (table : Table size maxUsers) (user : Fin (maxUsers + 1))
    (slots : List (Fin size)) : Prop :=
  Linked (fun slot => (table.nextSession slot).target) (table.userHead user) slots

/-- Every list ends and visits no slot twice, its unmarked slots are the sessions of its
user, and the lists of different users share no slot. -/
structure Table.HoldsSessions (table : Table size maxUsers) : Prop where
  lists : ∀ user, user ≠ 0 → ∃ slots, table.ListOf user slots ∧ slots.Nodup ∧
    ∀ slot, slot ∈ slots ∧ (table.nextSession slot).deleted = false ↔
      table.sessionUser slot = user
  apart : ∀ left right, left ≠ right → ∀ slots others, table.ListOf left slots →
    table.ListOf right others → slots.Disjoint others

end Pttbbs.Common.UtmpUser
