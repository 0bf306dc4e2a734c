/-
Hidden boards of friend.svc.

The service keeps, for each board it knows, the users its visable file lists, and
for each user the boards that list him; clients keep what they asked for as long
as the generation stands.  A request may name a board by its number, by its name
or by both.
-/

import Mathlib.Data.Finset.Sort
import Mathlib.Data.List.AList
import Mathlib.Logic.Function.Basic
import Pttbbs.FriendSvc.Storage

namespace Pttbbs.FriendSvc

open Pttbbs.Lib

/-! ### Shared memory and disk -/

/-- The accounts and boards in shared memory.  `searchuser` compares with
`strcasecmp`, so that the account it finds has the name it was asked for. -/
structure Shm (folding : Folding) where
  getUserID : Int → Option Bytes
  getUID : Bytes → Int
  bcache : Int → Option (Bytes × UInt32)
  getbnum : Bytes → Int
  boards : Nat
  searchuser_found : ∀ id, id.all isAlnum = true → 0 < getUID id →
    ∃ current, getUserID (getUID id) = some current ∧
      folding.equalFold current (folding.toLower id) = true

structure BoardInfo where
  bid : Int
  brdName : Bytes
  brdAttr : UInt32
deriving DecidableEq

namespace Shm

variable {folding : Folding} (shm : Shm folding)

def getBoardByBID (bid : Int) : Option BoardInfo :=
  if bid ≤ 0 then none else (shm.bcache bid).map fun board => ⟨bid, board.1, board.2⟩

def getBoardByName (brdName : Bytes) : Option BoardInfo :=
  if brdName = [] then none
  else if shm.getbnum brdName ≤ 0 then none
  else shm.getBoardByBID (shm.getbnum brdName)

def getBoards : List BoardInfo :=
  (List.range shm.boards).filterMap fun index => shm.getBoardByBID (index + 1)

end Shm

inductive Stat where
  | found (modTime size : Int)
  | missing
  | failed

/-- What one visit to a visable file sees: the scan's own look, the two calls of
`os.Stat` and the read.  The file may change between them. -/
structure Look where
  scan : Stat
  first : Stat
  second : Stat
  read : Content

/-- `LoadBoardVisableFile`; `none` is an error. -/
def loadBoardVisableFile (folding : Folding) (look : Look) :
    Option (List Bytes × Int × Int × Bool) :=
  match look.second with
  | .missing => some ([], 0, 0, false)
  | .failed => none
  | .found modTime size =>
      match look.read with
      | .missing => some ([], 0, 0, false)
      | .failed => none
      | .bytes content =>
          (scanTargets folding content).map fun targets => (targets, modTime, size, true)

/-! ### The state -/

structure BoardVisableCache where
  bid : Int
  brdName : Bytes
  brdAttr : UInt32
  modTime : Int := 0
  size : Int := 0
  fileExists : Bool := false
  uids : Finset Int := ∅
  names : Int → Option Bytes := fun _ => none

/-- The part of the service that hidden boards use.  `shmGen` is the counter in
shared memory.  `loads` is not in the source: the list that was last read, without
an error, for a board, with the name of the board it was read from. -/
structure Hbfl where
  hbflBoards : AList (fun _ : Int => BoardVisableCache) := ∅
  hbflBoardNameToBID : Bytes → Option Int := fun _ => none
  hbflUserBoards : Int → Finset Int := fun _ => ∅
  hbflGen : Int := 1
  shmGen : Int32 := 0
  testUserToUID : Bytes → Option Int := fun _ => none
  nextTestUID : Int := 1
  loads : Int → Option (Bytes × List Bytes) := fun _ => none

variable {folding : Folding} (shm : Option (Shm folding))

namespace Hbfl

def start (shmGen : Int32) : Hbfl :=
  match shm with
  | none => {}
  | some _ =>
      let initGen := if shmGen.toInt ≥ 1 then shmGen.toInt + 1 else 1
      { hbflGen := initGen
        shmGen := if shmGen < Int32.ofInt initGen then Int32.ofInt initGen else shmGen }

def bumpHBFLGenLocked (service : Hbfl) : Hbfl :=
  match shm with
  | none => { service with hbflGen := service.hbflGen + 1 }
  | some _ =>
      let shmGen := service.shmGen + 1
      if shmGen.toInt > service.hbflGen + 1 then
        { service with hbflGen := shmGen.toInt, shmGen := shmGen }
      else
        -- `set_hbfl_generation` only raises the counter.
        let gen := Int32.ofInt (service.hbflGen + 1)
        { service with
          hbflGen := service.hbflGen + 1
          shmGen := if shmGen < gen then gen else shmGen }

/-- `resolveUIDLocked` without a hint; without shared memory numbers are given out. -/
def resolveUIDLocked (service : Hbfl) (userID : Bytes) : Int × Hbfl :=
  let lower := folding.toLower userID
  if lower = [] then (0, service)
  else
    match shm with
    | some shm => (shm.getUID userID, service)
    | none =>
        match service.testUserToUID lower with
        | some uid => (uid, service)
        | none =>
            (service.nextTestUID,
              { service with
                nextTestUID := service.nextTestUID + 1
                testUserToUID :=
                  Function.update service.testUserToUID lower (some service.nextTestUID) })

def askedUID (service : Hbfl) (uid : Int) (userID : Bytes) : Int × Hbfl :=
  if uid ≤ 0 ∧ userID ≠ [] then service.resolveUIDLocked shm userID else (uid, service)

def resolveBoardIdentity (service : Hbfl) (bid : Int) (brdName : Bytes) :
    Int × Bytes × UInt32 :=
  let brdName := trimSpace brdName
  let known := if bid > 0 then service.hbflBoards.lookup bid else none
  match known with
  | some board => (bid, if brdName = [] then board.brdName else brdName, board.brdAttr)
  | none =>
      let named :=
        if brdName = [] then none
        else
          match service.hbflBoardNameToBID (folding.toLower brdName) with
          | none => none
          | some found =>
              (service.hbflBoards.lookup found).map fun board =>
                (found, board.brdName, board.brdAttr)
      match named with
      | some identity => identity
      | none =>
          match shm with
          | none => (bid, brdName, 0)
          | some shm =>
              match shm.getBoardByBID bid with
              | some info => (info.bid, info.brdName, info.brdAttr)
              | none =>
                  match shm.getBoardByName brdName with
                  | some info => (info.bid, info.brdName, info.brdAttr)
                  | none => (bid, brdName, 0)

/-! ### Reloading a board -/

/-- The users a list resolves to, and the name each was resolved from. -/
structure Members where
  uids : Finset Int := ∅
  names : Int → Option Bytes := fun _ => none

def addMember (state : Members × Hbfl) (userID : Bytes) : Members × Hbfl :=
  let (uid, service) := resolveUIDLocked shm state.2 userID
  if uid > 0 then
    ({ uids := insert uid state.1.uids
       names := Function.update state.1.names uid (some (folding.toLower userID)) }, service)
  else (state.1, service)

def membershipChanged (entry : BoardVisableCache) (uids : Finset Int) : Bool :=
  uids.card ≠ entry.uids.card ∨ ∃ uid ∈ uids, uid ∉ entry.uids

def reindex (index : Int → Finset Int) (bid : Int) (old new : Finset Int) (uid : Int) :
    Finset Int :=
  if uid ∈ old ∧ uid ∉ new then (index uid).erase bid
  else if uid ∈ new ∧ uid ∉ old then insert bid (index uid)
  else index uid

def unchanged (entry : BoardVisableCache) : Stat → Bool
  | .found modTime size => entry.fileExists ∧ entry.modTime = modTime ∧ entry.size = size
  | _ => !entry.fileExists

def stands (service : Hbfl) (bid : Int) (brdName : Bytes) (force : Bool) (stat : Stat) : Bool :=
  match service.hbflBoards.lookup bid with
  | some existing => !force && existing.brdName = brdName && unchanged existing stat
  | none => false

def membersOf (service : Hbfl) (userIDs : List Bytes) : Members × Hbfl :=
  userIDs.foldl (addMember shm) ({}, service)

def entryFor (service : Hbfl) (bid : Int) (brdName : Bytes) (brdAttr : UInt32) :
    BoardVisableCache :=
  match service.hbflBoards.lookup bid with
  | none => { bid := bid, brdName := brdName, brdAttr := brdAttr }
  | some entry => { entry with brdAttr := if brdAttr ≠ 0 then brdAttr else entry.brdAttr }

/-- What a visit to the file has read.  `read` is the list if there was no error. -/
structure Reading where
  userIDs : List Bytes := []
  modTime : Int := 0
  size : Int := 0
  fileExists : Bool := false
  read : Option (List Bytes) := none

def filled (service : Hbfl) (bid : Int) (brdName : Bytes) (brdAttr : UInt32)
    (reading : Reading) : BoardVisableCache :=
  let entry := service.entryFor bid brdName brdAttr
  let members := (service.membersOf shm reading.userIDs).1
  { entry with
    brdName := brdName
    uids := if membershipChanged entry members.uids then members.uids else entry.uids
    names := members.names
    fileExists := reading.fileExists
    modTime := reading.modTime
    size := reading.size }

/-- What `reloadBoardVisable` stores once the file has been read, but for the
generation. -/
def stored (service : Hbfl) (bid : Int) (brdName : Bytes) (brdAttr : UInt32)
    (reading : Reading) : Hbfl :=
  let entry := service.entryFor bid brdName brdAttr
  let nameToBID :=
    if entry.brdName ≠ [] ∧ folding.equalFold entry.brdName brdName = false then
      Function.update service.hbflBoardNameToBID (folding.toLower entry.brdName) none
    else service.hbflBoardNameToBID
  let (members, resolved) := service.membersOf shm reading.userIDs
  { resolved with
    hbflBoards := service.hbflBoards.insert bid (service.filled shm bid brdName brdAttr reading)
    hbflBoardNameToBID := Function.update nameToBID (folding.toLower brdName) (some bid)
    hbflUserBoards :=
      if membershipChanged entry members.uids then
        reindex service.hbflUserBoards bid entry.uids members.uids
      else service.hbflUserBoards
    loads :=
      match reading.read with
      | some ids => Function.update service.loads bid (some (brdName, ids))
      | none => service.loads }

def store (service : Hbfl) (bid : Int) (brdName : Bytes) (brdAttr : UInt32) (force : Bool)
    (reading : Reading) : Hbfl :=
  let stored := service.stored shm bid brdName brdAttr reading
  if membershipChanged (service.entryFor bid brdName brdAttr)
      (service.membersOf shm reading.userIDs).1.uids ∨ force then
    stored.bumpHBFLGenLocked shm
  else stored

/-- `GetBoardFile` knows no file for an empty name. -/
def Look.stat (look : Look) (brdName : Bytes) : Stat :=
  if trimSpace brdName = [] then .missing else look.first

def Look.reading (folding : Folding) (look : Look) : Stat → Reading
  | .missing => { read := some [] }
  | .failed => {}
  | .found _ _ =>
      match loadBoardVisableFile folding look with
      | none => {}
      | some (userIDs, modTime, size, fileExists) =>
          { userIDs, modTime, size, fileExists, read := some userIDs }

def reloadBoardVisable (service : Hbfl) (bid : Int) (brdName : Bytes) (brdAttr : UInt32)
    (force : Bool) (look : Look) : Hbfl :=
  if bid ≤ 0 ∨ brdName = [] then service
  else
    let stat := Look.stat look brdName
    if service.stands bid brdName force stat then service
    else service.store shm bid brdName brdAttr force (Look.reading folding look stat)

/-! ### Scans -/

/-- What a scan meets: the looks, the boards that have a visable file when there is
no shared memory, and the order in which a map is gone through. -/
structure Scan where
  looks : Nat → Look
  globbed : List Bytes := []
  order : { order : List Int → List Int // ∀ keys, (order keys).Perm keys } :=
    ⟨id, fun _ => .refl _⟩

def hasVisable (look : Look) (brdName : Bytes) : Bool :=
  if trimSpace brdName = [] then false
  else
    match look.scan with
    | .found _ _ => true
    | _ => false

def brdHBFLMask : UInt32 := 0x10 ||| 0x40000

def freeBID (service : Hbfl) : Nat → Int → Int
  | 0, bid => bid
  | fuel + 1, bid =>
      if (service.hbflBoards.lookup bid).isSome then freeBID service fuel (bid + 1) else bid

def scanBoard (service : Hbfl) (board : BoardInfo × Nat) (looks : Nat → Look) : Hbfl :=
  if board.1.bid ≤ 0 ∨ board.1.brdName = [] then service
  else if hasVisable (looks board.2) board.1.brdName ∨ board.1.brdAttr &&& brdHBFLMask ≠ 0 then
    service.reloadBoardVisable shm board.1.bid board.1.brdName board.1.brdAttr false
      (looks board.2)
  else service

def scanMatch (service : Hbfl) (board : Bytes × Nat) (looks : Nat → Look) : Hbfl :=
  if board.1 = [] then service
  else
    let bid :=
      match service.hbflBoardNameToBID (folding.toLower board.1) with
      | some bid => bid
      | none =>
          service.freeBID (service.hbflBoards.keys.length + 1)
            (service.hbflBoards.keys.length + 1)
    service.reloadBoardVisable shm bid board.1 0 false (looks board.2)

def scanHiddenBoards (service : Hbfl) (scan : Scan) : Hbfl :=
  match shm with
  | some memory =>
      memory.getBoards.zipIdx.foldl
        (fun service board => service.scanBoard (some memory) board scan.looks) service
  | none =>
      scan.globbed.zipIdx.foldl
        (fun service board => service.scanMatch (none : Option (Shm folding)) board scan.looks)
        service

def reloadKnown (service : Hbfl) (force : Bool) (scan : Scan) : Hbfl :=
  let all := (scan.order.1 service.hbflBoards.keys).filterMap service.hbflBoards.lookup
  all.zipIdx.foldl
    (fun service board => service.reloadBoardVisable shm board.1.bid board.1.brdName
      board.1.brdAttr force (scan.looks board.2)) service

/-- `due` says that the last check is two seconds old. -/
def maybeRefreshHBFLStat (service : Hbfl) (scan : Scan) (due : Bool) : Hbfl :=
  if service.hbflBoards.keys.length > 0 ∧ shm.isSome then service
  else if service.hbflBoards.keys.length = 0 then service.scanHiddenBoards shm scan
  else if service.hbflBoards.keys.length ≤ 8 ∨ due then service.reloadKnown shm false scan
  else service

end Hbfl

/-! ### Requests -/

inductive Refusal where
  | invalidUser
  | invalidBoard
  | boardNotFound
  | boardNotLoaded
  | unavailableWithoutSHM
deriving DecidableEq

inductive Response where
  | refused (why : Refusal) (gen : Int)
  | userBoards (uid : Int) (gen : Int) (bids : List Int)
  | checked (bid : Int) (brdName : Bytes) (uid : Int) (allowed : Bool) (gen : Int)
  | board (bid : Int) (brdName : Bytes) (friends : List Int) (gen : Int)
  | reloaded (gen : Int)
  | done
deriving DecidableEq

/-- A request with what it sees of the disk.  `bumped` is another process that
raises the counter in shared memory. -/
inductive Request where
  | registerBoard (bid : Int) (brdName : Bytes) (brdAttr : UInt32) (look : Look)
  | hbflUser (uid : Int) (userID : Bytes) (scan : Hbfl.Scan) (due : Bool)
  | hbflCheck (bid : Int) (brdName : Bytes) (uid : Int) (userID : Bytes) (look : Look)
  | hbflReload (bid : Int) (brdName : Bytes) (look : Look) (scan again : Hbfl.Scan)
  | hbflBoard (bid : Int) (brdName : Bytes) (look : Look)
  | rescan (scan : Hbfl.Scan)
  | bumped

namespace Hbfl

def hbflMemberLocked (board : BoardVisableCache) (uid : Int) : Bool :=
  if uid ∉ board.uids then false
  else
    match shm, board.names uid with
    | some shm, some name =>
        match shm.getUserID uid with
        | some current => folding.equalFold current name
        | none => false
    | _, _ => true

def admits (service : Hbfl) (bid uid : Int) : Bool :=
  match service.hbflBoards.lookup bid with
  | some board => hbflMemberLocked shm board uid
  | none => false

def handleHBFLUser (service : Hbfl) (uid : Int) (userID : Bytes) (scan : Scan) (due : Bool) :
    Hbfl × Response :=
  if shm.isNone then (service, .refused .unavailableWithoutSHM 0)
  else
    let service := service.maybeRefreshHBFLStat shm scan due
    let (uid, service) := service.askedUID shm uid userID
    if uid ≤ 0 then (service, .refused .invalidUser service.hbflGen)
    else
      let bids := (service.hbflUserBoards uid).filter fun bid => service.admits shm bid uid
      (service, .userBoards uid service.hbflGen (bids.sort (· ≤ ·)))

def handleHBFLCheck (service : Hbfl) (bid : Int) (brdName : Bytes) (uid : Int)
    (userID : Bytes) (look : Look) : Hbfl × Response :=
  let (bid, brdName, brdAttr) := service.resolveBoardIdentity shm bid brdName
  if bid ≤ 0 ∨ brdName = [] then (service, .refused .invalidBoard 0)
  else
    let service := service.reloadBoardVisable shm bid brdName brdAttr false look
    let (uid, service) := service.askedUID shm uid userID
    let allowed := uid > 0 && service.admits shm bid uid
    (service, .checked bid brdName uid allowed service.hbflGen)

def handleHBFLReload (service : Hbfl) (bid : Int) (brdName : Bytes) (look : Look)
    (scan again : Scan) : Hbfl × Response :=
  if bid ≤ 0 ∧ trimSpace brdName = [] then
    let service := (((service.scanHiddenBoards shm scan).reloadKnown shm true again)
      |>.bumpHBFLGenLocked shm)
    (service, .reloaded service.hbflGen)
  else
    let (bid, brdName, brdAttr) := service.resolveBoardIdentity shm bid brdName
    if bid ≤ 0 ∨ brdName = [] then
      let service := service.bumpHBFLGenLocked shm
      (service, .refused .boardNotFound service.hbflGen)
    else
      let service := service.reloadBoardVisable shm bid brdName brdAttr true look
      (service, .reloaded service.hbflGen)

def handleHBFLBoard (service : Hbfl) (bid : Int) (brdName : Bytes) (look : Look) :
    Hbfl × Response :=
  let (bid, brdName, brdAttr) := service.resolveBoardIdentity shm bid brdName
  if bid ≤ 0 ∨ brdName = [] then (service, .refused .boardNotFound 0)
  else
    let service := service.reloadBoardVisable shm bid brdName brdAttr false look
    match service.hbflBoards.lookup bid with
    | none => (service, .refused .boardNotLoaded 0)
    | some board =>
        (service,
          .board board.bid board.brdName (board.uids.sort (· ≤ ·)) service.hbflGen)

def handle (service : Hbfl) : Request → Hbfl × Response
  | .registerBoard bid brdName brdAttr look =>
      (service.reloadBoardVisable shm bid brdName brdAttr true look, .done)
  | .hbflUser uid userID scan due => service.handleHBFLUser shm uid userID scan due
  | .hbflCheck bid brdName uid userID look =>
      service.handleHBFLCheck shm bid brdName uid userID look
  | .hbflReload bid brdName look scan again =>
      service.handleHBFLReload shm bid brdName look scan again
  | .hbflBoard bid brdName look => service.handleHBFLBoard shm bid brdName look
  | .rescan scan => (service.scanHiddenBoards shm scan, .done)
  | .bumped => ({ service with shmGen := service.shmGen + 1 }, .done)

def step (service : Hbfl) (request : Request) : Hbfl := (service.handle shm request).1

end Hbfl

end Pttbbs.FriendSvc
