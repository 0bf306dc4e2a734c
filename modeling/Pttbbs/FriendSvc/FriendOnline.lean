/-
Friends online in friend.svc.

The service keeps the sessions that are online and, for the users who have one, the
friends and rejects of their lists in both directions.  Each request changes a few
users and writes the entries of the users it affected again.
-/

import Mathlib.Data.Finset.Union
import Mathlib.Data.List.Sort
import Mathlib.Logic.Function.Basic
import Pttbbs.FriendSvc.Storage

namespace Pttbbs.FriendSvc

open Pttbbs.Lib

/-! ### Entries -/

def friendBitIRH : Nat := 1
def friendBitHRM : Nat := 2
def friendBitIFH : Nat := 8
def friendBitHFM : Nat := 16
def friendBitISH : Nat := 32
def friendBitHSM : Nat := 64

def maxFriend : Nat := 256
def maxReject : Nat := 32
def maxFriendOnline : Nat := maxFriend + maxReject
def friendOnlineSlotBits : Nat := 18
def friendOnlineUIDBits : Nat := 6
def friendOnlineStatBits : Nat := 8
def friendOnlineSlotMask : Nat := 2 ^ friendOnlineSlotBits - 1
def friendOnlineUIDMask : Nat := 2 ^ friendOnlineUIDBits - 1
def friendOnlineStatMask : Nat := 2 ^ friendOnlineStatBits - 1

/-- `stat &^ bit`. -/
def without (stat bit : Nat) : Nat := stat ^^^ (stat &&& bit)

def isSuper (stat friend reject super : Nat) : Bool :=
  stat &&& (friend ||| reject) = friend ||| reject || stat &&& super ≠ 0

def normalizeFriendStat (stat : Nat) : Nat :=
  let mine :=
    if isSuper stat friendBitIFH friendBitIRH friendBitISH then
      without stat friendBitIRH ||| friendBitIFH ||| friendBitISH
    else stat
  if isSuper mine friendBitHFM friendBitHRM friendBitHSM then
    without mine friendBitHRM ||| friendBitHFM ||| friendBitHSM
  else mine

def rawFriendStat (stat : Nat) : Nat :=
  let mine :=
    if isSuper stat friendBitIFH friendBitIRH friendBitISH then
      stat ||| friendBitIFH ||| friendBitIRH ||| friendBitISH
    else stat
  if isSuper mine friendBitHFM friendBitHRM friendBitHSM then
    mine ||| friendBitHFM ||| friendBitHRM ||| friendBitHSM
  else mine

def uidTag (uid : Int) : Nat :=
  if uid > 0 then (uid.toNat % 2 ^ 32 % friendOnlineUIDMask + 1) &&& friendOnlineUIDMask else 0

/-- `none` is a panic. -/
def packFriendOnline (stat : Nat) (uid slot : Int) : Option Nat :=
  if slot < 0 ∨ slot > friendOnlineSlotMask then none
  else if rawFriendStat stat > friendOnlineStatMask then none
  else if uid < 0 then none
  else if uid > 0 ∧ (uidTag uid = 0 ∨ uidTag uid > friendOnlineUIDMask) then none
  else
    some ((rawFriendStat stat &&& friendOnlineStatMask) <<<
        (friendOnlineSlotBits + friendOnlineUIDBits) |||
      uidTag uid <<< friendOnlineSlotBits ||| slot.toNat &&& friendOnlineSlotMask)

def unpackFriendOnline (entry : Nat) : Nat × Nat × Nat :=
  (normalizeFriendStat
      (entry >>> (friendOnlineSlotBits + friendOnlineUIDBits) &&& friendOnlineStatMask),
    entry >>> friendOnlineSlotBits &&& friendOnlineUIDMask, entry &&& friendOnlineSlotMask)

def friendStatPriority (stat : Nat) : Nat :=
  if stat &&& (friendBitHRM ||| friendBitIRH ||| friendBitISH ||| friendBitHSM) ≠ 0 then 3
  else if stat &&& friendBitIFH ≠ 0 then 2
  else 1

structure SidEntry where
  sid : Int
  uid : Int
  stat : Nat
deriving DecidableEq

def SidEntry.rank (left right : SidEntry) : Prop :=
  friendStatPriority right.stat < friendStatPriority left.stat ∨
    friendStatPriority right.stat = friendStatPriority left.stat ∧ left.sid ≤ right.sid

instance SidEntry.decidableRank : DecidableRel SidEntry.rank :=
  fun _ _ => inferInstanceAs (Decidable (_ ∨ _))

def SidEntry.before (left right : SidEntry) : Prop := left.sid ≤ right.sid

instance SidEntry.decidableBefore : DecidableRel SidEntry.before :=
  fun _ _ => inferInstanceAs (Decidable (_ ≤ _))

def limitEntries (list : List SidEntry) : List SidEntry :=
  if list.length > maxFriendOnline then (list.insertionSort SidEntry.rank).take maxFriendOnline
  else list

/-! ### The state -/

structure SubscriberSession where
  pid : Int
  sid : Int
  uid : Int
  userID : Bytes

structure Lists where
  friends : Finset Int := ∅
  rejects : Finset Int := ∅
deriving DecidableEq

/-- `lastLoaded` and `loadedOnline` are not in the source: the lists of a user that
were read last, and those that were read last since the user came online. -/
structure Service where
  onlineSessions : Int → Option SubscriberSession := fun _ => none
  sidToPID : Int → Option Int := fun _ => none
  userPIDs : Bytes → Finset Int := fun _ => ∅
  uidToSIDs : Int → Finset Int := fun _ => ∅
  userFriends : Int → Finset Int := fun _ => ∅
  revFriends : Int → Finset Int := fun _ => ∅
  userRejects : Int → Finset Int := fun _ => ∅
  revRejects : Int → Finset Int := fun _ => ∅
  sessionFriendsCache : Int → List Nat := fun _ => []
  lastLoaded : Int → Lists := fun _ => {}
  loadedOnline : Int → Lists := fun _ => {}

structure Order where
  each : Finset Int → List Int
  nodup_each : ∀ keys, (each keys).Nodup
  mem_each : ∀ keys key, key ∈ each keys ↔ key ∈ keys

/-- `GetSessionDetail`: the process and the user in a slot of shared memory, which has
no more slots than an entry can name. -/
structure Slots where
  get : Int → Option (Int × Int)
  valid : ∀ sid detail, get sid = some detail → 0 ≤ sid ∧ sid ≤ friendOnlineSlotMask

structure Visit where
  early : Slots
  late : Slots
  overrides : Content
  reject : Content
  order : Order

/-- `uidOf` resolves a user id, which has one number for all time. -/
structure Config where
  folding : Folding
  uidOf : Bytes → Int
  shm : Bool
  enableUIDTag : Bool

namespace Service

variable (config : Config)

/-! ### Publishing -/

/-- The four loops of `computeFriendOnlineForUIDLocked` over the relations. -/
def peerStat (service : Service) (uid peer : Int) : Nat :=
  (if peer ∈ service.userFriends uid then friendBitIFH else 0) |||
    (if peer ∈ service.revFriends uid then friendBitHFM else 0) |||
    (if peer ∈ service.userRejects uid then
      if peer ∈ service.userFriends uid then friendBitIFH ||| friendBitISH else friendBitIRH
    else 0) |||
    (if peer ∈ service.revRejects uid then
      if peer ∈ service.revFriends uid then friendBitHFM ||| friendBitHSM else friendBitHRM
    else 0)

def peers (service : Service) (uid : Int) : Finset Int :=
  (service.userFriends uid ∪ service.revFriends uid ∪ service.userRejects uid ∪
    service.revRejects uid).filter fun peer => service.uidToSIDs peer ≠ ∅

def sidEntries (service : Service) (order : Order) (uid : Int) : List SidEntry :=
  (order.each (service.peers uid)).flatMap fun peer =>
    if service.peerStat uid peer = 0 then []
    else (order.each (service.uidToSIDs peer)).map fun sid =>
      ⟨sid, peer, service.peerStat uid peer⟩

def keptEntries (service : Service) (order : Order) (uid : Int) : List SidEntry :=
  (limitEntries (service.sidEntries order uid)).insertionSort SidEntry.before

def packEntry (entry : SidEntry) : Option Nat :=
  packFriendOnline entry.stat (if config.enableUIDTag then entry.uid else 0) entry.sid

def computeFriendOnlineForUIDLocked (service : Service) (order : Order) (uid : Int) :
    Option (List Nat) :=
  (service.keptEntries order uid).mapM (packEntry config)

def syncUIDFriendsToSHMLocked (service : Service) (order : Order) (uid : Int) : Option Service :=
  if uid ≤ 0 then some service
  else if service.uidToSIDs uid = ∅ then some service
  else
    (service.computeFriendOnlineForUIDLocked config order uid).map fun entries =>
      { service with
        sessionFriendsCache := fun sid =>
          if sid ∈ service.uidToSIDs uid then entries else service.sessionFriendsCache sid }

def publish (service : Service) (order : Order) (affected : Finset Int) : Option Service :=
  (order.each affected).foldlM
    (fun service uid => service.syncUIDFriendsToSHMLocked config order uid) service

/-! ### Sessions -/

def relink (rev : Int → Finset Int) (uid : Int) (old new : Finset Int) (target : Int) :
    Finset Int :=
  if target ∈ new then insert uid (rev target)
  else if target ∈ old then (rev target).erase uid
  else rev target

def related (service : Service) (uid : Int) : Finset Int :=
  insert uid (service.userFriends uid ∪ service.userRejects uid ∪ service.revFriends uid ∪
    service.revRejects uid)

def setLists (service : Service) (uid : Int) (lists : Lists) : Service :=
  { service with
    userFriends := Function.update service.userFriends uid lists.friends
    revFriends := relink service.revFriends uid (service.userFriends uid) lists.friends
    userRejects := Function.update service.userRejects uid lists.rejects
    revRejects := relink service.revRejects uid (service.userRejects uid) lists.rejects }

def dropSession (service : Service) (session : SubscriberSession) : Service :=
  { service with
    onlineSessions := Function.update service.onlineSessions session.pid none
    sidToPID :=
      if 0 ≤ session.sid ∧ service.sidToPID session.sid = some session.pid then
        Function.update service.sidToPID session.sid none
      else service.sidToPID
    sessionFriendsCache :=
      if 0 ≤ session.sid then Function.update service.sessionFriendsCache session.sid []
      else service.sessionFriendsCache
    userPIDs :=
      let userLower := config.folding.toLower session.userID
      Function.update service.userPIDs userLower ((service.userPIDs userLower).erase session.pid) }

def cleanupSessionLocked (service : Service) (session : SubscriberSession) :
    Service × Finset Int :=
  let dropped := service.dropSession config session
  if session.uid ≤ 0 then (dropped, ∅)
  else if service.uidToSIDs session.uid = ∅ then (dropped, service.related session.uid)
  else
    let sids := (service.uidToSIDs session.uid).erase session.sid
    let left := { dropped with uidToSIDs := Function.update service.uidToSIDs session.uid sids }
    if sids = ∅ then
      ({ left.setLists session.uid {} with
          loadedOnline := Function.update service.loadedOnline session.uid {} },
        service.related session.uid)
    else (left, service.related session.uid)

def cleanupIfAny (service : Service) : Option SubscriberSession → Service × Finset Int
  | none => (service, ∅)
  | some session => service.cleanupSessionLocked config session

def staleSession (service : Service) (pid sid : Int) : Option SubscriberSession :=
  if 0 ≤ sid then
    match service.sidToPID sid with
    | some oldPID => if oldPID ≠ pid then service.onlineSessions oldPID else none
    | none => none
  else none

def addSession (service : Service) (session : SubscriberSession) : Service :=
  let subscriberLower := config.folding.toLower session.userID
  { service with
    onlineSessions := Function.update service.onlineSessions session.pid (some session)
    sidToPID :=
      if 0 ≤ session.sid then Function.update service.sidToPID session.sid (some session.pid)
      else service.sidToPID
    userPIDs := Function.update service.userPIDs subscriberLower
      (insert session.pid (service.userPIDs subscriberLower))
    uidToSIDs :=
      if 0 < session.uid ∧ 0 ≤ session.sid then
        Function.update service.uidToSIDs session.uid
          (insert session.sid (service.uidToSIDs session.uid))
      else service.uidToSIDs }

def updateUserFriendGraphLocked (service : Service) (uid : Int) (lists : Lists) :
    Service × Finset Int :=
  let updated := service.setLists uid lists
  (updated, service.userFriends uid ∪ service.userRejects uid ∪ updated.related uid)

/-! ### Requests -/

/-- `none` is an error. -/
def loadFriendLists (userID : Bytes) (visit : Visit) : Option (List Bytes × List Bytes) :=
  if userID = [] then some ([], [])
  else if trimSpace userID = [] then none
  else
    match loadUserIDListFile config.folding visit.overrides with
    | none => none
    | some friends =>
        (loadUserIDListFile config.folding visit.reject).map fun rejects => (friends, rejects)

/-- The user of a session that did not say. -/
def hintFromSlot (hintUID pid sid : Int) (visit : Visit) : Int :=
  if hintUID ≤ 0 ∧ config.shm ∧ 0 ≤ sid then
    match visit.early.get sid with
    | some (slotPID, slotUID) => if pid ≤ 0 ∨ slotPID = pid then slotUID else hintUID
    | none => hintUID
  else hintUID

def resolveUIDLocked (userID : Bytes) (hintUID : Int) : Int :=
  if hintUID > 0 then hintUID else config.uidOf userID

/-- Only users that are found count towards the limit. -/
def resolveList (limit : Nat) (ids : List Bytes) : Finset Int :=
  (((ids.map config.uidOf).filter (0 < ·)).take limit).toFinset

/-- The lists a session comes with; after an error those the service has. -/
def listsFor (service : Service) (uid : Int) : Option (List Bytes × List Bytes) → Lists
  | some (friends, rejects) =>
      ⟨resolveList config maxFriend friends, resolveList config maxReject rejects⟩
  | none => ⟨service.userFriends uid, service.userRejects uid⟩

/-- A session that has passed the check is put in the place of whatever was in its
slot and under its process. -/
def enroll (service : Service) (session : SubscriberSession)
    (disk : Option (List Bytes × List Bytes)) : Service × Finset Int :=
  let lists := service.listsFor config session.uid disk
  let evicted := service.cleanupIfAny config (service.staleSession session.pid session.sid)
  let cleaned := evicted.1.cleanupIfAny config (evicted.1.onlineSessions session.pid)
  let added := cleaned.1.addSession config session
  if 0 < session.uid ∧ 0 ≤ session.sid then
    let updated := added.updateUserFriendGraphLocked session.uid lists
    let online := if disk.isSome then lists else service.loadedOnline session.uid
    ({ updated.1 with
        lastLoaded :=
          if disk.isSome then Function.update service.lastLoaded session.uid lists
          else service.lastLoaded
        loadedOnline := Function.update added.loadedOnline session.uid online },
      evicted.2 ∪ cleaned.2 ∪ updated.2)
  else (added, evicted.2 ∪ cleaned.2)

def registerSubscriberFull (service : Service) (subscriberID : Bytes) (hintUID pid sid : Int)
    (visit : Visit) : Option Service :=
  let disk := loadFriendLists config subscriberID visit
  if config.shm ∧ 0 ≤ sid ∧ 0 < pid ∧ (visit.late.get sid).map Prod.fst ≠ some pid then
    some service
  else
    let uid := resolveUIDLocked config subscriberID (hintFromSlot config hintUID pid sid visit)
    let enrolled := service.enroll config ⟨pid, sid, uid, subscriberID⟩ disk
    enrolled.1.publish config visit.order enrolled.2

def alreadySynced (service : Service) (userID : Bytes) (pid sid : Int) : Bool :=
  match service.onlineSessions pid with
  | some session => session.sid = sid && config.folding.equalFold session.userID userID
  | none => false

def handleUserLogin (service : Service) (userID : Bytes) (pid sid uid : Int) (visit : Visit) :
    Option Service :=
  if userID = [] ∨ pid ≤ 0 then some service
  else if service.alreadySynced config userID pid sid then some service
  else service.registerSubscriberFull config userID uid pid sid visit

def handleFriendSync (service : Service) (userID : Bytes) (uid pid sid : Int) (visit : Visit) :
    Option Service :=
  if userID = [] ∨ pid ≤ 0 ∨ sid < 0 then some service
  else service.registerSubscriberFull config userID uid pid sid visit

def handleUserLogout (service : Service) (userID : Bytes) (pid : Int) (order : Order) :
    Option Service :=
  match service.onlineSessions pid with
  | none => some service
  | some session =>
      if userID ≠ [] ∧ config.folding.equalFold session.userID userID = false then some service
      else
        let cleaned := service.cleanupSessionLocked config session
        cleaned.1.publish config order cleaned.2

def handleReloadAloha (service : Service) (subscriberID : Bytes) (visit : Visit) :
    Option Service :=
  if subscriberID = [] then some service
  else
    let pids := visit.order.each (service.userPIDs (config.folding.toLower subscriberID))
    match pids.filterMap service.onlineSessions with
    | [] => some service
    | session :: _ =>
        service.registerSubscriberFull config session.userID session.uid session.pid session.sid
          visit

end Service

inductive FriendRequest where
  | login (userID : Bytes) (pid sid uid : Int) (visit : Visit)
  | friendSync (userID : Bytes) (uid pid sid : Int) (visit : Visit)
  | logout (userID : Bytes) (pid : Int) (order : Order)
  | reload (userID : Bytes) (visit : Visit)

def Service.step (config : Config) (service : Option Service) (request : FriendRequest) :
    Option Service :=
  service.bind fun service =>
    match request with
    | .login userID pid sid uid visit => service.handleUserLogin config userID pid sid uid visit
    | .friendSync userID uid pid sid visit =>
        service.handleFriendSync config userID uid pid sid visit
    | .logout userID pid order => service.handleUserLogout config userID pid order
    | .reload userID visit => service.handleReloadAloha config userID visit

end Pttbbs.FriendSvc
