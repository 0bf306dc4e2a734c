/-
Who may see a hidden board.

The reverse index is exact and the generation moves with it whatever is asked.
An answer follows the board's own list as long as a request that gives a number and
a name gives them as shared memory has them.
-/

import Pttbbs.FriendSvc.HiddenBoards
import Pttbbs.Lib.Runs

namespace Pttbbs.FriendSvc

open Pttbbs.Lib

variable {folding : Folding} (shm : Option (Shm folding))

/-! ### What is asked of the service -/

def Response.Grants : Response → Int → Int → Prop
  | .userBoards uid _ bids, bid, user => user = uid ∧ bid ∈ bids
  | .checked asked _ uid allowed _, bid, user => bid = asked ∧ user = uid ∧ allowed = true
  | .board shown _ friends _, bid, user => bid = shown ∧ user ∈ friends
  | _, _, _ => False

/-- The user is in the list, as it was last read without an error, of the board that
shared memory has under the number. -/
def Shm.Lists (memory : Shm folding) (service : Hbfl) (bid uid : Int) : Prop :=
  ∃ board ids id current, memory.getBoardByBID bid = some board ∧
    service.loads bid = some (board.brdName, ids) ∧ id ∈ ids ∧
    memory.getUserID uid = some current ∧
    folding.equalFold current (folding.toLower id) = true

namespace Hbfl

def Inverse (service : Hbfl) : Prop :=
  ∀ uid bid, bid ∈ service.hbflUserBoards uid ↔
    ∃ board, service.hbflBoards.lookup bid = some board ∧ uid ∈ board.uids

def access (service : Hbfl) (uid : Int) : Set Int := { bid | service.admits shm bid uid = true }

structure Guarded (start : Hbfl) (requests : List Request) : Prop where
  inverse : (run (step shm) start requests).Inverse
  answers : ∀ memory, shm = some memory →
    ∀ before request after, requests = before ++ request :: after →
      ∀ bid uid, ((run (step shm) start before).handle shm request).2.Grants bid uid →
        memory.Lists (run (step shm) start (before ++ [request])) bid uid
  revoked : ∀ before between after, requests = before ++ between ++ after →
    ∀ uid, (run (step shm) start before).access shm uid ≠
        (run (step shm) start (before ++ between)).access shm uid →
      (run (step shm) start before).hbflGen <
        (run (step shm) start (before ++ between)).hbflGen

/-- Whether a name leads to a board, by the names the service knows or by shared
memory. -/
def namesBoard (memory : Shm folding) (service : Hbfl) (brdName : Bytes) : Bool :=
  ((service.hbflBoardNameToBID (folding.toLower brdName)).bind service.hbflBoards.lookup).isSome ||
    (memory.getBoardByName brdName).isSome

/-- The number and the name of a request belong together: the name is the one shared
memory has for the number, or the number is not loaded and the name is not used. -/
def Belongs (memory : Shm folding) (service : Hbfl) (bid : Int) (brdName : Bytes) : Prop :=
  0 < bid → brdName ≠ [] →
    (memory.getBoardByBID bid).map BoardInfo.brdName = some brdName ∨
      (service.hbflBoards.lookup bid).isNone = true ∧
        ((memory.getBoardByBID bid).isSome = true ∨ namesBoard memory service brdName = true)

def Proper (service : Hbfl) : Request → Prop
  | .registerBoard bid brdName _ _ =>
      ∀ memory ∈ shm, 0 < bid → brdName ≠ [] →
        (memory.getBoardByBID bid).map BoardInfo.brdName = some brdName
  | .hbflCheck bid brdName _ _ _ => ∀ memory ∈ shm, Belongs memory service bid (trimSpace brdName)
  | .hbflReload bid brdName _ _ _ => ∀ memory ∈ shm, Belongs memory service bid (trimSpace brdName)
  | .hbflBoard bid brdName _ => ∀ memory ∈ shm, Belongs memory service bid (trimSpace brdName)
  | _ => True

/-! ### The generation -/

def Grown (before after : Hbfl) : Prop :=
  before.hbflGen ≤ after.hbflGen ∧
    (before.hbflUserBoards ≠ after.hbflUserBoards → before.hbflGen < after.hbflGen)

namespace Grown

theorem refl (service : Hbfl) : Grown service service := ⟨le_rfl, fun differ => absurd rfl differ⟩

theorem trans {first second third : Hbfl} (one : Grown first second) (two : Grown second third) :
    Grown first third := by
  refine ⟨le_trans one.1 two.1, ?_⟩
  intro differ
  by_cases same : first.hbflUserBoards = second.hbflUserBoards
  · rw [same] at differ
    exact lt_of_le_of_lt one.1 (two.2 differ)
  · exact lt_of_lt_of_le (one.2 same) two.1

end Grown

section Bump

variable (service : Hbfl)

theorem bump_gen : service.hbflGen < (service.bumpHBFLGenLocked shm).hbflGen := by
  unfold bumpHBFLGenLocked
  split
  · dsimp only
    omega
  · dsimp only
    split
    · dsimp only
      omega
    · dsimp only
      omega

@[simp] theorem bump_boards :
    (service.bumpHBFLGenLocked shm).hbflBoards = service.hbflBoards := by
  unfold bumpHBFLGenLocked
  split
  · rfl
  · dsimp only
    split <;> rfl

@[simp] theorem bump_userBoards :
    (service.bumpHBFLGenLocked shm).hbflUserBoards = service.hbflUserBoards := by
  unfold bumpHBFLGenLocked
  split
  · rfl
  · dsimp only
    split <;> rfl

@[simp] theorem bump_loads : (service.bumpHBFLGenLocked shm).loads = service.loads := by
  unfold bumpHBFLGenLocked
  split
  · rfl
  · dsimp only
    split <;> rfl

theorem bump_grown : Grown service (service.bumpHBFLGenLocked shm) :=
  ⟨le_of_lt (bump_gen shm service), fun _differ => bump_gen shm service⟩

end Bump

/-! ### The members of a list -/

theorem resolveUIDLocked_snd (service : Hbfl) (userID : Bytes) :
    ∃ users next, (service.resolveUIDLocked shm userID).2 =
      { service with testUserToUID := users, nextTestUID := next } := by
  unfold resolveUIDLocked
  dsimp only
  split
  · exact ⟨_, _, rfl⟩
  · split
    · exact ⟨_, _, rfl⟩
    · split
      · exact ⟨_, _, rfl⟩
      · exact ⟨_, _, rfl⟩

theorem resolveUIDLocked_gen (service : Hbfl) (userID : Bytes) :
    (service.resolveUIDLocked shm userID).2.hbflGen = service.hbflGen := by
  obtain ⟨users, next, same⟩ := resolveUIDLocked_snd shm service userID
  rw [same]

theorem addMember_gen (state : Members × Hbfl) (userID : Bytes) :
    (addMember shm state userID).2.hbflGen = state.2.hbflGen := by
  unfold addMember
  dsimp only
  split
  · exact resolveUIDLocked_gen shm state.2 userID
  · exact resolveUIDLocked_gen shm state.2 userID

theorem foldl_addMember_gen (userIDs : List Bytes) (state : Members × Hbfl) :
    (userIDs.foldl (addMember shm) state).2.hbflGen = state.2.hbflGen := by
  induction userIDs generalizing state with
  | nil => rfl
  | cons userID rest ih =>
      rw [List.foldl_cons, ih]
      exact addMember_gen shm state userID

def Members.From (memory : Shm folding) (userIDs : List Bytes) (members : Members) : Prop :=
  ∀ uid ∈ members.uids, 0 < uid ∧ ∃ id ∈ userIDs,
    memory.getUID id = uid ∧ members.names uid = some (folding.toLower id)

theorem resolveUIDLocked_shm (memory : Shm folding) (service : Hbfl) (userID : Bytes)
    (found : 0 < (service.resolveUIDLocked (some memory) userID).1) :
    (service.resolveUIDLocked (some memory) userID).1 = memory.getUID userID := by
  unfold resolveUIDLocked at found ⊢
  dsimp only at found ⊢
  split at found
  · exact absurd found (by simp)
  · rename_i named
    rw [if_neg named]

theorem addMember_from (memory : Shm folding) (userIDs : List Bytes) (state : Members × Hbfl)
    (known : state.1.From memory userIDs) {userID : Bytes} (member : userID ∈ userIDs) :
    (addMember (some memory) state userID).1.From memory userIDs := by
  unfold addMember
  dsimp only
  split
  · rename_i found
    have number := resolveUIDLocked_shm memory state.2 userID found
    intro uid listed
    by_cases same : uid = (state.2.resolveUIDLocked (some memory) userID).1
    · subst same
      refine ⟨found, userID, member, number.symm, ?_⟩
      simp
    · have old : uid ∈ state.1.uids := by
        simpa [same] using listed
      obtain ⟨positive, id, inList, resolves, named⟩ := known uid old
      refine ⟨positive, id, inList, resolves, ?_⟩
      rw [← named]
      exact Function.update_of_ne same _ _
  · exact known

theorem foldl_addMember_from (memory : Shm folding) (all userIDs : List Bytes)
    (inside : ∀ id ∈ userIDs, id ∈ all) (state : Members × Hbfl)
    (known : state.1.From memory all) :
    (userIDs.foldl (addMember (some memory)) state).1.From memory all := by
  induction userIDs generalizing state with
  | nil => exact known
  | cons userID rest ih =>
      rw [List.foldl_cons]
      refine ih (fun id later => inside id (List.mem_cons_of_mem _ later)) _ ?_
      exact addMember_from memory all state known (inside userID List.mem_cons_self)

theorem membershipChanged_eq_false {entry : BoardVisableCache} {uids : Finset Int}
    (same : membershipChanged entry uids = false) : uids = entry.uids := by
  unfold membershipChanged at same
  rw [decide_eq_false_iff_not, not_or] at same
  obtain ⟨sizes, members⟩ := same
  refine Finset.eq_of_subset_of_card_le ?_ (le_of_eq (not_not.mp sizes).symm)
  intro uid member
  by_contra outside
  exact members ⟨uid, member, outside⟩

theorem mem_reindex_self {index : Int → Finset Int} {bid uid : Int} {old new : Finset Int}
    (exact : bid ∈ index uid ↔ uid ∈ old) : bid ∈ reindex index bid old new uid ↔ uid ∈ new := by
  unfold reindex
  split
  · rename_i gone
    simp [gone.2]
  · split
    · rename_i kept added
      simp [added.1]
    · rename_i kept same
      rw [exact]
      constructor
      · intro member
        by_contra outside
        exact kept ⟨member, outside⟩
      · intro member
        by_contra outside
        exact same ⟨member, outside⟩

theorem mem_reindex_of_ne {index : Int → Finset Int} {bid other uid : Int}
    {old new : Finset Int} (differ : other ≠ bid) :
    other ∈ reindex index bid old new uid ↔ other ∈ index uid := by
  unfold reindex
  split
  · simp [differ]
  · split
    · simp [differ]
    · rfl

/-! ### Storing a list -/

section Store

variable {service : Hbfl} {bid : Int} {brdName : Bytes} {brdAttr : UInt32} {force : Bool}
  {reading : Reading}

theorem filled_uids : (service.filled shm bid brdName brdAttr reading).uids =
    (service.membersOf shm reading.userIDs).1.uids := by
  unfold filled
  dsimp only
  split
  · rfl
  · rename_i same
    exact (membershipChanged_eq_false (Bool.eq_false_of_not_eq_true same)).symm

theorem store_boards : (service.store shm bid brdName brdAttr force reading).hbflBoards =
    service.hbflBoards.insert bid (service.filled shm bid brdName brdAttr reading) := by
  unfold store
  dsimp only
  split
  · exact bump_boards shm _
  · rfl

theorem store_userBoards : (service.store shm bid brdName brdAttr force reading).hbflUserBoards =
    (service.stored shm bid brdName brdAttr reading).hbflUserBoards := by
  unfold store
  dsimp only
  split
  · exact bump_userBoards shm _
  · rfl

theorem store_loads : (service.store shm bid brdName brdAttr force reading).loads =
    (service.stored shm bid brdName brdAttr reading).loads := by
  unfold store
  dsimp only
  split
  · exact bump_loads shm _
  · rfl

theorem store_grown : Grown service (service.store shm bid brdName brdAttr force reading) := by
  have kept : (service.stored shm bid brdName brdAttr reading).hbflGen = service.hbflGen :=
    foldl_addMember_gen shm reading.userIDs ({}, service)
  unfold store
  dsimp only
  split
  · have risen := lt_of_eq_of_lt kept.symm
      (bump_gen shm (service.stored shm bid brdName brdAttr reading))
    exact ⟨le_of_lt risen, fun _differ => risen⟩
  · rename_i same
    refine ⟨le_of_eq kept.symm, ?_⟩
    intro differ
    have still : (service.stored shm bid brdName brdAttr reading).hbflUserBoards =
        service.hbflUserBoards := if_neg fun changed => same (.inl changed)
    exact absurd still.symm differ

end Store

/-! ### What every request keeps -/

structure Kept (service : Hbfl) : Prop where
  inverse : service.Inverse
  numbered : ∀ bid board, service.hbflBoards.lookup bid = some board → board.bid = bid
  named : ∀ memory, shm = some memory →
    ∀ bid board, service.hbflBoards.lookup bid = some board → ∀ uid ∈ board.uids,
      0 < uid ∧ ∃ id, id.all isAlnum = true ∧ memory.getUID id = uid ∧
        board.names uid = some (folding.toLower id)

variable {shm}

theorem Inverse.entryFor {service : Hbfl} (inverse : service.Inverse) (bid uid : Int)
    (brdName : Bytes) (brdAttr : UInt32) :
    bid ∈ service.hbflUserBoards uid ↔ uid ∈ (service.entryFor bid brdName brdAttr).uids := by
  rw [inverse uid bid]
  unfold Hbfl.entryFor
  cases known : service.hbflBoards.lookup bid with
  | none => simp
  | some board => simp

namespace Kept

variable {service : Hbfl} (kept : Kept shm service)

include kept

theorem entryFor_bid (bid : Int) (brdName : Bytes) (brdAttr : UInt32) :
    (service.entryFor bid brdName brdAttr).bid = bid := by
  unfold Hbfl.entryFor
  cases known : service.hbflBoards.lookup bid with
  | none => rfl
  | some board => exact kept.numbered bid board known

theorem mem_store_userBoards {bid : Int} {brdName : Bytes} {brdAttr : UInt32} {force : Bool}
    {reading : Reading} (other uid : Int) :
    other ∈ (service.store shm bid brdName brdAttr force reading).hbflUserBoards uid ↔
      if other = bid then uid ∈ (service.membersOf shm reading.userIDs).1.uids
      else other ∈ service.hbflUserBoards uid := by
  rw [store_userBoards]
  unfold stored
  dsimp only
  split
  · split
    · rename_i changed same
      subst same
      exact mem_reindex_self (kept.inverse.entryFor other uid brdName brdAttr)
    · rename_i changed differ
      exact mem_reindex_of_ne differ
  · split
    · rename_i unchanged same
      subst same
      rw [kept.inverse.entryFor other uid brdName brdAttr,
        membershipChanged_eq_false (Bool.eq_false_of_not_eq_true unchanged)]
    · rfl

theorem store {bid : Int} {brdName : Bytes} {brdAttr : UInt32} {force : Bool} {reading : Reading}
    (plain : ∀ id ∈ reading.userIDs, id.all isAlnum = true) :
    Kept shm (service.store shm bid brdName brdAttr force reading) where
  inverse := by
    intro uid other
    rw [kept.mem_store_userBoards, store_boards]
    by_cases same : other = bid
    · subst same
      rw [if_pos rfl, AList.lookup_insert]
      simp [filled_uids]
    · rw [if_neg same, AList.lookup_insert_ne same]
      exact kept.inverse uid other
  numbered := by
    intro other board known
    rw [store_boards] at known
    by_cases same : other = bid
    · subst same
      rw [AList.lookup_insert] at known
      cases known
      exact kept.entryFor_bid other brdName brdAttr
    · rw [AList.lookup_insert_ne same] at known
      exact kept.numbered other board known
  named := by
    intro memory attached other board known uid member
    rw [store_boards] at known
    by_cases same : other = bid
    · subst same
      rw [AList.lookup_insert] at known
      cases known
      subst attached
      rw [filled_uids] at member
      obtain ⟨positive, id, listed, resolves, called⟩ :=
        foldl_addMember_from memory reading.userIDs reading.userIDs (fun _ listed => listed)
          ({}, service) nofun uid member
      exact ⟨positive, id, plain id listed, resolves, called⟩
    · rw [AList.lookup_insert_ne same] at known
      exact kept.named memory attached other board known uid member

end Kept

theorem reading_plain (look : Look) (stat : Stat) :
    ∀ id ∈ (Look.reading folding look stat).userIDs, id.all isAlnum = true := by
  unfold Look.reading loadBoardVisableFile
  cases stat with
  | missing => exact nofun
  | failed => exact nofun
  | found modTime size =>
      dsimp only
      cases look.second with
      | missing => exact nofun
      | failed => exact nofun
      | found modTime size =>
          dsimp only
          cases look.read with
          | missing => exact nofun
          | failed => exact nofun
          | bytes content =>
              dsimp only
              cases scanned : scanTargets folding content with
              | none => exact nofun
              | some targets => exact scanTargets_alnum folding scanned

theorem reading_whole (look : Look) (stat : Stat) :
    (Look.reading folding look stat).read = some (Look.reading folding look stat).userIDs ∨
      (Look.reading folding look stat).userIDs = [] := by
  unfold Look.reading
  cases stat with
  | missing => exact .inr rfl
  | failed => exact .inr rfl
  | found modTime size =>
      dsimp only
      cases loadBoardVisableFile folding look with
      | none => exact .inr rfl
      | some result => exact .inl rfl

/-! ### Requests -/

/-- From a coherent state the service comes to a coherent state, with a generation
that tells whether somebody's boards changed. -/
def Advances (shm : Option (Shm folding)) (before after : Hbfl) : Prop :=
  Kept shm before → Kept shm after ∧ Grown before after

namespace Advances

theorem refl (service : Hbfl) : Advances shm service service := fun kept => ⟨kept, .refl service⟩

theorem trans {first second third : Hbfl} (one : Advances shm first second)
    (two : Advances shm second third) : Advances shm first third := by
  intro kept
  obtain ⟨middle, early⟩ := one kept
  obtain ⟨last, late⟩ := two middle
  exact ⟨last, early.trans late⟩

theorem foldl {Item : Type} {visit : Hbfl → Item → Hbfl}
    (each : ∀ service item, Advances shm service (visit service item)) (items : List Item)
    (service : Hbfl) : Advances shm service (items.foldl visit service) := by
  induction items generalizing service with
  | nil => exact .refl service
  | cons item rest ih => exact (each service item).trans (ih (visit service item))

theorem reload (service : Hbfl) (bid : Int) (brdName : Bytes) (brdAttr : UInt32) (force : Bool)
    (look : Look) :
    Advances shm service (service.reloadBoardVisable shm bid brdName brdAttr force look) := by
  intro kept
  unfold reloadBoardVisable
  split
  · exact ⟨kept, .refl service⟩
  · dsimp only
    split
    · exact ⟨kept, .refl service⟩
    · exact ⟨kept.store (reading_plain look _), store_grown shm⟩

theorem bump (service : Hbfl) : Advances shm service (service.bumpHBFLGenLocked shm) := by
  intro kept
  refine ⟨⟨?_, ?_, ?_⟩, bump_grown shm service⟩
  · intro uid bid
    rw [bump_userBoards, bump_boards]
    exact kept.inverse uid bid
  · rw [bump_boards]
    exact kept.numbered
  · rw [bump_boards]
    exact kept.named

theorem resolve (service : Hbfl) (userID : Bytes) :
    Advances shm service (service.resolveUIDLocked shm userID).2 := by
  intro kept
  obtain ⟨users, next, same⟩ := resolveUIDLocked_snd shm service userID
  rw [same]
  exact ⟨⟨kept.inverse, kept.numbered, kept.named⟩, .refl _⟩

theorem scan (service : Hbfl) (seen : Scan) :
    Advances shm service (service.scanHiddenBoards shm seen) := by
  unfold scanHiddenBoards
  cases shm with
  | some memory =>
      refine foldl ?_ _ service
      intro service board
      unfold scanBoard
      split
      · exact .refl service
      · split
        · exact reload service _ _ _ _ _
        · exact .refl service
  | none =>
      refine foldl ?_ _ service
      intro service board
      unfold scanMatch
      split
      · exact .refl service
      · exact reload service _ _ _ _ _

theorem reloadKnown (service : Hbfl) (force : Bool) (seen : Scan) :
    Advances shm service (service.reloadKnown shm force seen) :=
  foldl (fun service _board => reload service _ _ _ _ _) _ service

theorem refresh (service : Hbfl) (seen : Scan) (due : Bool) :
    Advances shm service (service.maybeRefreshHBFLStat shm seen due) := by
  unfold maybeRefreshHBFLStat
  split
  · exact .refl service
  · split
    · exact scan service seen
    · split
      · exact reloadKnown service false seen
      · exact .refl service

theorem asked (service : Hbfl) (uid : Int) (userID : Bytes) :
    Advances shm service (service.askedUID shm uid userID).2 := by
  unfold askedUID
  split
  · exact resolve service userID
  · exact .refl service

theorem step (service : Hbfl) (request : Request) :
    Advances shm service (service.step shm request) := by
  unfold Hbfl.step handle
  cases request with
  | registerBoard bid brdName brdAttr look => exact reload service _ _ _ _ _
  | hbflUser uid userID seen due =>
      dsimp only
      unfold handleHBFLUser
      split
      · exact .refl service
      · dsimp only
        split
        · exact (refresh service seen due).trans (asked _ uid userID)
        · exact (refresh service seen due).trans (asked _ uid userID)
  | hbflCheck bid brdName uid userID look =>
      dsimp only
      unfold handleHBFLCheck
      dsimp only
      split
      · exact .refl service
      · exact (reload service _ _ _ _ look).trans (asked _ uid userID)
  | hbflReload bid brdName look seen again =>
      dsimp only
      unfold handleHBFLReload
      split
      · exact ((scan service seen).trans (reloadKnown _ true again)).trans (bump _)
      · dsimp only
        split
        · exact bump service
        · exact reload service _ _ _ _ look
  | hbflBoard bid brdName look =>
      dsimp only
      unfold handleHBFLBoard
      dsimp only
      split
      · exact .refl service
      · split
        · exact reload service _ _ _ _ look
        · exact reload service _ _ _ _ look
  | rescan seen => exact scan service seen
  | bumped => exact fun kept => ⟨⟨kept.inverse, kept.numbered, kept.named⟩, .refl _⟩

end Advances

/-! ### Boards and their own lists -/

theorem Kept.admits_iff {service : Hbfl} (kept : Kept shm service) (bid uid : Int) :
    service.admits shm bid uid = true ↔ bid ∈ service.hbflUserBoards uid := by
  rw [kept.inverse uid bid]
  unfold admits
  cases known : service.hbflBoards.lookup bid with
  | none => simp
  | some board =>
      dsimp only
      unfold hbflMemberLocked
      by_cases member : uid ∈ board.uids
      · rw [if_neg (not_not.mpr member)]
        cases shm with
        | none => simp [member]
        | some memory =>
            obtain ⟨positive, id, plain, resolves, called⟩ :=
              kept.named memory rfl bid board known uid member
            rw [← resolves] at positive
            obtain ⟨current, account, fold⟩ := memory.searchuser_found id plain positive
            rw [resolves] at account
            rw [called]
            dsimp only
            rw [account]
            simp [member, fold]
      · rw [if_pos member]
        simp [member]

theorem Kept.access_eq {service : Hbfl} (kept : Kept shm service) (uid : Int) :
    service.access shm uid = (service.hbflUserBoards uid : Set Int) := by
  ext bid
  exact kept.admits_iff bid uid

/-- Every board stands under the name shared memory has for its number, and its
members come from the list that was last read for it. -/
structure Placed (memory : Shm folding) (service : Hbfl) : Prop where
  placed : ∀ bid board, service.hbflBoards.lookup bid = some board →
    (memory.getBoardByBID bid).map BoardInfo.brdName = some board.brdName
  listed : ∀ bid board, service.hbflBoards.lookup bid = some board → ∀ uid ∈ board.uids,
    ∃ ids id, service.loads bid = some (board.brdName, ids) ∧ id ∈ ids ∧
      id.all isAlnum = true ∧ memory.getUID id = uid ∧ 0 < uid

theorem Shm.getBoardByBID_bid {memory : Shm folding} {bid : Int} {info : BoardInfo}
    (found : memory.getBoardByBID bid = some info) : info.bid = bid := by
  unfold Shm.getBoardByBID at found
  split at found
  · cases found
  · rw [Option.map_eq_some_iff] at found
    obtain ⟨board, _cached, rfl⟩ := found
    rfl

theorem Shm.getBoardByName_bid {memory : Shm folding} {brdName : Bytes} {info : BoardInfo}
    (found : memory.getBoardByName brdName = some info) :
    memory.getBoardByBID info.bid = some info := by
  unfold Shm.getBoardByName at found
  split at found
  · cases found
  · split at found
    · cases found
    · rw [Shm.getBoardByBID_bid found]
      exact found

namespace Placed

variable {memory : Shm folding} {service : Hbfl} (placed : Placed memory service)

include placed

theorem store {bid : Int} {brdName : Bytes} {brdAttr : UInt32} {force : Bool} {reading : Reading}
    (plain : ∀ id ∈ reading.userIDs, id.all isAlnum = true)
    (whole : reading.read = some reading.userIDs ∨ reading.userIDs = [])
    (own : (memory.getBoardByBID bid).map BoardInfo.brdName = some brdName) :
    Placed memory (service.store (some memory) bid brdName brdAttr force reading) where
  placed := by
    intro other board known
    rw [store_boards] at known
    by_cases same : other = bid
    · subst same
      rw [AList.lookup_insert] at known
      cases known
      exact own
    · rw [AList.lookup_insert_ne same] at known
      exact placed.placed other board known
  listed := by
    intro other board known uid member
    rw [store_boards] at known
    rw [store_loads]
    unfold stored
    dsimp only
    by_cases same : other = bid
    · subst same
      rw [AList.lookup_insert] at known
      cases known
      rw [filled_uids] at member
      obtain ⟨positive, id, inList, resolves, _called⟩ :=
        foldl_addMember_from memory reading.userIDs reading.userIDs (fun _ listed => listed)
          ({}, service) nofun uid member
      obtain read | empty := whole
      · rw [read]
        refine ⟨reading.userIDs, id, ?_, inList, plain id inList, resolves, positive⟩
        simp [filled]
      · rw [empty] at inList
        cases inList
    · rw [AList.lookup_insert_ne same] at known
      obtain ⟨ids, id, loaded, rest⟩ := placed.listed other board known uid member
      refine ⟨ids, id, ?_, rest⟩
      cases reading.read with
      | none => exact loaded
      | some fresh => exact (Function.update_of_ne same _ _).trans loaded

theorem reload {bid : Int} {brdName : Bytes} {brdAttr : UInt32} {force : Bool} {look : Look}
    (own : 0 < bid → brdName ≠ [] →
      (memory.getBoardByBID bid).map BoardInfo.brdName = some brdName) :
    Placed memory
      (service.reloadBoardVisable (some memory) bid brdName brdAttr force look) := by
  unfold reloadBoardVisable
  split
  · exact placed
  · rename_i usable
    rw [not_or, not_le] at usable
    dsimp only
    split
    · exact placed
    · exact placed.store (reading_plain look _) (reading_whole look _) (own usable.1 usable.2)

theorem resolve (userID : Bytes) :
    Placed memory (service.resolveUIDLocked (some memory) userID).2 := by
  obtain ⟨users, next, same⟩ := resolveUIDLocked_snd (some memory) service userID
  rw [same]
  exact ⟨placed.placed, placed.listed⟩

theorem asked (uid : Int) (userID : Bytes) :
    Placed memory (service.askedUID (some memory) uid userID).2 := by
  unfold askedUID
  split
  · exact placed.resolve userID
  · exact placed

theorem bump : Placed memory (service.bumpHBFLGenLocked (some memory)) := by
  constructor
  · rw [bump_boards]
    exact placed.placed
  · rw [bump_boards, bump_loads]
    exact placed.listed

theorem scan (seen : Scan) : Placed memory (service.scanHiddenBoards (some memory) seen) := by
  unfold scanHiddenBoards
  refine List.foldlRecOn _ _ placed ?_
  intro service placed board member
  unfold scanBoard
  split
  · exact placed
  · split
    · refine placed.reload ?_
      intro _positive _named
      have inBoards : board.1 ∈ memory.getBoards := List.fst_mem_of_mem_zipIdx member
      unfold Shm.getBoards at inBoards
      rw [List.mem_filterMap] at inBoards
      obtain ⟨index, _inRange, found⟩ := inBoards
      rw [Shm.getBoardByBID_bid found, found]
      rfl
    · exact placed

theorem reloadKnown (kept : Kept (some memory) service) (force : Bool) (seen : Scan) :
    Placed memory (service.reloadKnown (some memory) force seen) := by
  unfold Hbfl.reloadKnown
  dsimp only
  have own := placed.placed
  refine List.foldlRecOn _ _ placed ?_
  intro later placed board member
  refine placed.reload ?_
  intro _positive _named
  have snapshot : board.1 ∈ (seen.order.1 service.hbflBoards.keys).filterMap
      service.hbflBoards.lookup := List.fst_mem_of_mem_zipIdx member
  rw [List.mem_filterMap] at snapshot
  obtain ⟨bid, _inOrder, known⟩ := snapshot
  rw [kept.numbered bid board.1 known]
  exact own bid board.1 known

theorem resolveBoardIdentity {bid : Int} {brdName : Bytes}
    (belongs : Belongs memory service bid (trimSpace brdName)) :
    let identity := service.resolveBoardIdentity (some memory) bid brdName
    0 < identity.1 → identity.2.1 ≠ [] →
      (memory.getBoardByBID identity.1).map BoardInfo.brdName = some identity.2.1 := by
  unfold Hbfl.resolveBoardIdentity
  dsimp only
  cases known : if bid > 0 then service.hbflBoards.lookup bid else none with
  | some board =>
      dsimp only
      intro positive named
      rw [if_pos positive] at known
      split
      · exact placed.placed bid board known
      · rename_i given
        obtain own | ⟨unknown, _⟩ := belongs positive given
        · exact own
        · rw [known] at unknown
          cases unknown
  | none =>
      dsimp only
      split
      · rename_i identity found
        intro _positive _named
        split at found
        · cases found
        · split at found
          · cases found
          · rw [Option.map_eq_some_iff] at found
            obtain ⟨board, loaded, rfl⟩ := found
            exact placed.placed _ board loaded
      · rename_i unnamed
        split
        · rename_i info found
          intro _positive _named
          dsimp only
          rw [Shm.getBoardByBID_bid found, found]
          rfl
        · rename_i noNumber
          split
          · rename_i info found
            intro _positive _named
            dsimp only
            rw [Shm.getBoardByName_bid found]
            rfl
          · rename_i noName
            intro positive named
            dsimp only at positive named ⊢
            obtain own | ⟨_, numbered | leads⟩ := belongs positive named
            · exact own
            · rw [noNumber] at numbered
              cases numbered
            · rw [if_neg named] at unnamed
              unfold namesBoard at leads
              rw [noName] at leads
              cases number : service.hbflBoardNameToBID (folding.toLower (trimSpace brdName)) with
              | none =>
                  rw [number] at leads
                  cases leads
              | some found =>
                  rw [number] at leads unnamed
                  dsimp only at unnamed
                  rw [Option.map_eq_none_iff] at unnamed
                  rw [Option.bind_some, unnamed] at leads
                  cases leads

theorem refresh (seen : Scan) (due : Bool) (kept : Kept (some memory) service) :
    Placed memory (service.maybeRefreshHBFLStat (some memory) seen due) := by
  unfold maybeRefreshHBFLStat
  split
  · exact placed
  · split
    · exact placed.scan seen
    · split
      · exact placed.reloadKnown kept false seen
      · exact placed

theorem step (kept : Kept (some memory) service) (request : Request)
    (proper : service.Proper (some memory) request) :
    Placed memory (service.step (some memory) request) := by
  unfold Hbfl.step handle
  cases request with
  | registerBoard bid brdName brdAttr look => exact placed.reload (proper memory rfl)
  | hbflUser uid userID seen due =>
      dsimp only
      unfold handleHBFLUser
      split
      · exact placed
      · dsimp only
        split
        · exact (placed.refresh seen due kept).asked uid userID
        · exact (placed.refresh seen due kept).asked uid userID
  | hbflCheck bid brdName uid userID look =>
      dsimp only
      unfold handleHBFLCheck
      dsimp only
      split
      · exact placed
      · exact (placed.reload (placed.resolveBoardIdentity (proper memory rfl))).asked uid userID
  | hbflReload bid brdName look seen again =>
      dsimp only
      unfold handleHBFLReload
      split
      · have scanned := (Advances.scan service seen kept).1
        exact ((placed.scan seen).reloadKnown scanned true again).bump
      · dsimp only
        split
        · exact placed.bump
        · exact placed.reload (placed.resolveBoardIdentity (proper memory rfl))
  | hbflBoard bid brdName look =>
      dsimp only
      unfold handleHBFLBoard
      dsimp only
      split
      · exact placed
      · split
        · exact placed.reload (placed.resolveBoardIdentity (proper memory rfl))
        · exact placed.reload (placed.resolveBoardIdentity (proper memory rfl))
  | rescan seen => exact placed.scan seen
  | bumped => exact ⟨placed.placed, placed.listed⟩

theorem lists {bid uid : Int} {board : BoardVisableCache}
    (known : service.hbflBoards.lookup bid = some board) (member : uid ∈ board.uids) :
    memory.Lists service bid uid := by
  have own := placed.placed bid board known
  rw [Option.map_eq_some_iff] at own
  obtain ⟨info, found, name⟩ := own
  obtain ⟨ids, id, loaded, listed, plain, resolves, positive⟩ :=
    placed.listed bid board known uid member
  rw [← resolves] at positive
  obtain ⟨current, account, fold⟩ := memory.searchuser_found id plain positive
  rw [resolves] at account
  exact ⟨info, ids, id, current, found, by rw [loaded, name], listed, account, fold⟩

theorem lists_of_admits {bid uid : Int} (admitted : service.admits (some memory) bid uid = true) :
    memory.Lists service bid uid := by
  unfold admits at admitted
  cases known : service.hbflBoards.lookup bid with
  | none =>
      rw [known] at admitted
      cases admitted
  | some board =>
      rw [known] at admitted
      dsimp only at admitted
      unfold hbflMemberLocked at admitted
      split at admitted
      · cases admitted
      · rename_i member
        exact placed.lists known (not_not.mp member)

end Placed

theorem lists_of_grants {memory : Shm folding} {service : Hbfl} {request : Request}
    (kept : Kept (some memory) (service.step (some memory) request))
    (placed : Placed memory (service.step (some memory) request)) {bid uid : Int}
    (grants : (service.handle (some memory) request).2.Grants bid uid) :
    memory.Lists (service.step (some memory) request) bid uid := by
  unfold step at kept placed ⊢
  unfold handle at kept placed grants ⊢
  cases request with
  | registerBoard bid brdName brdAttr look => exact grants.elim
  | hbflUser asked userID seen due =>
      dsimp only at kept placed grants ⊢
      unfold handleHBFLUser at kept placed grants ⊢
      split at grants
      · exact grants.elim
      · rename_i attached
        rw [if_neg attached] at kept placed ⊢
        dsimp only at kept placed grants ⊢
        split at grants
        · exact grants.elim
        · rename_i valid
          rw [if_neg valid] at placed ⊢
          obtain ⟨rfl, member⟩ := grants
          rw [Finset.mem_sort, Finset.mem_filter] at member
          exact placed.lists_of_admits member.2
  | hbflCheck asked brdName user userID look =>
      dsimp only at kept placed grants ⊢
      unfold handleHBFLCheck at kept placed grants ⊢
      dsimp only at kept placed grants ⊢
      split at grants
      · exact grants.elim
      · rename_i valid
        rw [if_neg valid] at placed ⊢
        obtain ⟨rfl, rfl, allowed⟩ := grants
        rw [Bool.and_eq_true] at allowed
        exact placed.lists_of_admits allowed.2
  | hbflReload asked brdName look seen again =>
      exfalso
      dsimp only at grants
      unfold handleHBFLReload at grants
      split at grants
      · exact grants
      · dsimp only at grants
        split at grants
        · exact grants
        · exact grants
  | hbflBoard asked brdName look =>
      dsimp only at kept placed grants ⊢
      unfold handleHBFLBoard at kept placed grants ⊢
      dsimp only at kept placed grants ⊢
      split at grants
      · exact grants.elim
      · rename_i valid
        rw [if_neg valid] at kept placed ⊢
        split at grants
        · exact grants.elim
        · rename_i board known
          rw [known] at kept placed
          obtain ⟨rfl, member⟩ := grants
          rw [Finset.mem_sort] at member
          have number := kept.numbered _ board known
          rw [number]
          exact placed.lists known member
  | rescan seen => exact grants.elim
  | bumped => exact grants.elim

/-! ### Runs -/

theorem Kept.start (shmGen : Int32) : Kept shm (start shm shmGen) := by
  unfold Hbfl.start
  split
  · exact ⟨fun uid bid => by simp, fun bid board known => by simp at known,
      fun memory attached bid board known => by simp at known⟩
  · exact ⟨fun uid bid => by simp, fun bid board known => by simp at known,
      fun memory attached bid board known => by simp at known⟩

theorem Placed.start (memory : Shm folding) (shmGen : Int32) :
    Placed memory (Hbfl.start (some memory) shmGen) :=
  ⟨fun bid board known => by simp [Hbfl.start] at known,
    fun bid board known => by simp [Hbfl.start] at known⟩

theorem Kept.run {service : Hbfl} (kept : Kept shm service) (requests : List Request) :
    Kept shm (run (step shm) service requests) ∧
      Grown service (run (step shm) service requests) :=
  Advances.foldl Advances.step requests service kept

theorem Placed.along {memory : Shm folding} {service : Hbfl} {requests : List Request}
    (placed : Placed memory service) (kept : Kept (some memory) service)
    (proper : StepsMeet (Hbfl.step (some memory)) (Proper (some memory)) service requests) :
    Placed memory (run (Hbfl.step (some memory)) service requests) := by
  induction requests generalizing service with
  | nil => exact placed
  | cons request rest ih =>
      exact ih (placed.step kept request proper.1) (Advances.step service request kept).1 proper.2

/-- In every run whose requests name boards as shared memory has them, the index is
exact, answers follow the boards' own lists, and a changed access shows in the
generation. -/
theorem guarded_run (shmGen : Int32) {requests : List Request}
    (proper : StepsMeet (step shm) (Proper shm) (start shm shmGen) requests) :
    Guarded shm (start shm shmGen) requests where
  inverse := ((Kept.start shmGen).run requests).1.inverse
  answers := by
    intro memory attached before request after split bid uid grants
    subst attached split
    have asked := stepsMeet_iff.mp proper before request after rfl
    have first : Kept (some memory) (start (some memory) shmGen) := Kept.start shmGen
    have earlier := (first.run before).1
    have placed := (Placed.start memory shmGen).along first proper.of_append
    rw [run_append]
    exact lists_of_grants (Advances.step _ request earlier).1
      (placed.step earlier request asked) grants
  revoked := by
    intro before between after split uid differ
    have first : Kept shm (start shm shmGen) := Kept.start shmGen
    have earlier := first.run before
    have later := earlier.1.run between
    rw [← run_append] at later
    rw [earlier.1.access_eq, later.1.access_eq] at differ
    refine later.2.2 ?_
    intro same
    rw [same] at differ
    exact differ rfl

/-! ### Two boards -/

instance decidableBelongs (memory : Shm folding) (service : Hbfl) (bid : Int) (brdName : Bytes) :
    Decidable (Belongs memory service bid brdName) :=
  inferInstanceAs (Decidable (0 < bid → brdName ≠ [] → _))

instance decidableProper (memory : Shm folding) (service : Hbfl) :
    (request : Request) → Decidable (service.Proper (some memory) request)
  | .registerBoard _ _ _ _ =>
      decidable_of_iff (0 < _ → _ ≠ [] → _ = some _)
        ⟨fun own _ same => Option.mem_some.mp same ▸ own, fun all => all memory rfl⟩
  | .hbflCheck bid brdName _ _ _ =>
      decidable_of_iff (Belongs memory service bid (trimSpace brdName))
        ⟨fun own _ same => Option.mem_some.mp same ▸ own, fun all => all memory rfl⟩
  | .hbflReload bid brdName _ _ _ =>
      decidable_of_iff (Belongs memory service bid (trimSpace brdName))
        ⟨fun own _ same => Option.mem_some.mp same ▸ own, fun all => all memory rfl⟩
  | .hbflBoard bid brdName _ =>
      decidable_of_iff (Belongs memory service bid (trimSpace brdName))
        ⟨fun own _ same => Option.mem_some.mp same ▸ own, fun all => all memory rfl⟩
  | .hbflUser _ _ _ _ => isTrue trivial
  | .rescan _ => isTrue trivial
  | .bumped => isTrue trivial

def twoBoards : Shm Folding.ascii where
  getUserID uid :=
    if uid = 7 then some (utf8 "eve") else if uid = 8 then some (utf8 "alice") else none
  getUID id :=
    if asciiLower id = utf8 "eve" then 7 else if asciiLower id = utf8 "alice" then 8 else 0
  bcache bid :=
    if bid = 1 then some (utf8 "Secret", 0x10)
    else if bid = 2 then some (utf8 "Open", 0x10) else none
  getbnum brdName :=
    if asciiLower brdName = utf8 "secret" then 1
    else if asciiLower brdName = utf8 "open" then 2 else 0
  boards := 2
  searchuser_found := by
    intro id _plain found
    have folded (name : Bytes) (lower : asciiLower name = name) (same : asciiLower id = name) :
        Folding.ascii.equalFold name (Folding.ascii.toLower id) = true := by
      change decide (asciiLower name = asciiLower (asciiLower id)) = true
      rw [same, decide_eq_true_eq]
    split
    · rename_i same
      exact ⟨utf8 "eve", by decide, folded _ (by decide) same⟩
    · rename_i notEve
      rw [if_neg notEve] at found
      split
      · rename_i same
        exact ⟨utf8 "alice", by decide, folded _ (by decide) same⟩
      · rename_i notAlice
        rw [if_neg notAlice] at found
        exact absurd found (by decide)

def fileOf (user : String) : Look :=
  { scan := .found 1 6, first := .found 1 6, second := .found 1 6, read := .bytes (utf8 user) }

def properRequests : List Request :=
  [.hbflCheck 1 (utf8 "Secret") 8 [] (fileOf "alice"), .hbflCheck 2 [] 7 [] (fileOf "eve"),
    .hbflUser 8 [] { looks := fun _ => fileOf "eve" } false]

theorem guarded_run_two_boards :
    Guarded (some twoBoards) (start (some twoBoards) 0) properRequests ∧
      ((run (step (some twoBoards)) (start (some twoBoards) 0) properRequests).handle
        (some twoBoards) (.hbflCheck 1 [] 8 [] (fileOf "alice"))).2 =
          .checked 1 (utf8 "Secret") 8 true 3 :=
  ⟨guarded_run 0 (by decide), by decide⟩

/-- The number of a board that is loaded, with the name of another. -/
def mixedRequest : Request := .hbflCheck 1 (utf8 "Open") 7 [] (fileOf "eve")

theorem other_list_admits :
    ((run (step (some twoBoards)) (start (some twoBoards) 0)
        [.hbflCheck 1 [] 8 [] (fileOf "alice")]).handle (some twoBoards) mixedRequest).2 =
          .checked 1 (utf8 "Open") 7 true 3 ∧
      ¬ Guarded (some twoBoards) (start (some twoBoards) 0)
        [.hbflCheck 1 [] 8 [] (fileOf "alice"), mixedRequest] := by
  have answered : ((run (step (some twoBoards)) (start (some twoBoards) 0)
        [.hbflCheck 1 [] 8 [] (fileOf "alice")]).handle (some twoBoards) mixedRequest).2 =
          .checked 1 (utf8 "Open") 7 true 3 := by decide
  refine ⟨answered, ?_⟩
  intro guarded
  have listed := guarded.answers twoBoards rfl [.hbflCheck 1 [] 8 [] (fileOf "alice")]
    mixedRequest [] rfl 1 7 (by rw [answered]; exact ⟨rfl, rfl, rfl⟩)
  obtain ⟨board, ids, _id, _current, found, loaded, _⟩ := listed
  have name : board.brdName = utf8 "Secret" := by
    have secret : twoBoards.getBoardByBID 1 = some ⟨1, utf8 "Secret", 0x10⟩ := by decide
    rw [secret] at found
    cases found
    rfl
  have load : ((run (step (some twoBoards)) (start (some twoBoards) 0)
      [.hbflCheck 1 [] 8 [] (fileOf "alice"), mixedRequest]).loads 1).map Prod.fst =
        some (utf8 "Open") := by decide
  change ((run (step (some twoBoards)) (start (some twoBoards) 0)
      ([.hbflCheck 1 [] 8 [] (fileOf "alice")] ++ [mixedRequest])).loads 1).map Prod.fst = _ at load
  rw [loaded, Option.map_some, name] at load
  have differ : utf8 "Secret" ≠ utf8 "Open" := by decide
  exact differ (Option.some.inj load)

end Hbfl

end Pttbbs.FriendSvc
