/-
The indexes of ipc.svc over a run of packets and disconnects.

Each dispatch is one step.  Beside the service the state of a run keeps which
clients are connected and what the last REGISTER or UNREGISTER of each said; the
indexes are held against these.
-/

import Pttbbs.IpcSvc.Server
import Pttbbs.Lib.Runs

namespace Pttbbs.IpcSvc

open Pttbbs.Lib

/-! ### Runs -/

inductive Event where
  | accept
  | packet (around : Surroundings) (id : ClientID) (packet : Packet)
  | disconnect (id : ClientID)

structure Daemon where
  service : Service := {}
  connected : Finset ClientID := ∅
  nextID : ClientID := 0
  /-- The user and pid of the last registration, if it was not taken back. -/
  last : ClientID → Option (Bytes × UInt32) := fun _ => none

def Packet.lifecycle (toLower : Bytes → Bytes) (packet : Packet)
    (last : Option (Bytes × UInt32)) : Option (Bytes × UInt32) :=
  match packet.command with
  | .register =>
      match decodeRegisterPayload packet.payload with
      | some payload => some (toLower payload.userID, payload.pid)
      | none => last
  | .unregister => none
  | _ => last

namespace Daemon

/-- A packet of a client that is gone is not read. -/
def step (daemon : Daemon) : Event → Daemon
  | .accept =>
      { daemon with
        service := daemon.service.accept daemon.nextID
        connected := insert daemon.nextID daemon.connected
        nextID := daemon.nextID + 1 }
  | .packet around id packet =>
      if id ∈ daemon.connected then
        { daemon with
          service := (daemon.service.dispatch around id packet).1
          last := Function.update daemon.last id
            (packet.lifecycle around.toLower (daemon.last id)) }
      else daemon
  | .disconnect id =>
      if id ∈ daemon.connected then
        { daemon with
          service := daemon.service.disconnect id
          connected := daemon.connected.erase id
          last := Function.update daemon.last id none }
      else daemon

structure Consistent (daemon : Daemon) : Prop where
  users : ∀ user id, (daemon.service.sessions user).count id =
    if id ∈ daemon.connected ∧ (daemon.last id).map Prod.fst = some user then 1 else 0
  pids : ∀ pid id, daemon.service.byPid.get? pid = some id →
    id ∈ daemon.connected ∧ (daemon.last id).map Prod.snd = some pid
  topics : ∀ key id, id ∈ daemon.service.subscribers key ↔
    id ∈ daemon.connected ∧ key ∈ (daemon.service.client id).topics
  noEmptyList : ∀ user, daemon.service.byUser.get? user ≠ some []
  noEmptyTopic : ∀ key, daemon.service.topics.get? key ≠ some ∅
  gone : ∀ id, id ∉ daemon.connected →
    id ∉ daemon.service.clients ∧ (∀ user, id ∉ daemon.service.sessions user) ∧
      (∀ pid, daemon.service.byPid.get? pid ≠ some id) ∧
      ∀ key, id ∉ daemon.service.subscribers key

/-- A client registered under the empty id does not register again. -/
def Renames (daemon : Daemon) : Event → Prop
  | .packet _ id packet =>
      packet.command = .register ∧ (decodeRegisterPayload packet.payload).isSome ∧
        id ∈ daemon.connected ∧ (daemon.last id).map Prod.fst = some []
  | _ => False

end Daemon

/-! ### The operations on the indexes -/

namespace Service

variable {service : Service}

theorem sessions_dropSession (user other : Bytes) (id : ClientID) :
    (service.dropSession user id).sessions other =
      if other = user then (service.sessions user).filter (fun item => item ≠ id)
      else service.sessions other := by
  unfold dropSession
  cases found : service.byUser.get? user with
  | none =>
      by_cases same : other = user
      · rw [if_pos same, same]
        unfold sessions
        rw [found]
        rfl
      · rw [if_neg same]
  | some list =>
      unfold sessions
      dsimp only
      rw [OrderedMap.getD_setUnless, found]
      split
      · rfl
      · rfl

theorem count_dropSession (user other : Bytes) (id item : ClientID) :
    ((service.dropSession user id).sessions other).count item =
      if other = user ∧ item = id then 0 else (service.sessions other).count item := by
  rw [sessions_dropSession]
  by_cases sameUser : other = user
  · rw [if_pos sameUser]
    by_cases same : item = id
    · rw [if_pos ⟨sameUser, same⟩, List.count_eq_zero]
      intro member
      simp [same] at member
    · rw [if_neg (fun both => same both.2), List.count_filter (by simpa using same), sameUser]
  · rw [if_neg sameUser, if_neg (fun both => sameUser both.1)]

theorem byUser_dropSession_ne_nil (user other : Bytes) (id : ClientID)
    (noEmpty : ∀ user, service.byUser.get? user ≠ some []) :
    (service.dropSession user id).byUser.get? other ≠ some [] := by
  unfold dropSession
  cases found : service.byUser.get? user with
  | none => exact noEmpty other
  | some list => exact OrderedMap.get?_setUnless_ne _ noEmpty user other _

theorem byPid_dropPid (pid other : UInt32) (id : ClientID) :
    (service.dropPid pid id).byPid.get? other =
      if 0 < pid ∧ other = pid ∧ service.byPid.get? pid = some id then none
      else service.byPid.get? other := by
  unfold dropPid
  by_cases held : 0 < pid ∧ service.byPid.get? pid = some id
  · rw [if_pos (by simpa using held)]
    dsimp only
    rw [OrderedMap.get?_delete]
    by_cases same : other = pid
    · rw [if_pos same, if_pos ⟨held.1, same, held.2⟩]
    · rw [if_neg same, if_neg (fun both => same both.2.1)]
  · rw [if_neg (by simpa using held), if_neg (fun both => held ⟨both.1, both.2.2⟩)]

theorem subscribers_dropSubscriber (id : ClientID) (key other : TopicKey) :
    (service.dropSubscriber id key).subscribers other =
      if other = key then (service.subscribers key).erase id else service.subscribers other := by
  unfold dropSubscriber
  cases found : service.topics.get? key with
  | none =>
      by_cases same : other = key
      · rw [if_pos same, same]
        unfold subscribers
        rw [found]
        rfl
      · rw [if_neg same]
  | some subs =>
      unfold subscribers
      dsimp only
      rw [OrderedMap.getD_setUnless, found]
      split
      · rfl
      · rfl

theorem topics_dropSubscriber_ne_empty (id : ClientID) (key other : TopicKey)
    (noEmpty : ∀ key, service.topics.get? key ≠ some ∅) :
    (service.dropSubscriber id key).topics.get? other ≠ some ∅ := by
  unfold dropSubscriber
  cases found : service.topics.get? key with
  | none => exact noEmpty other
  | some subs => exact OrderedMap.get?_setUnless_ne _ noEmpty key other _

theorem dropSession_frame (user : Bytes) (id : ClientID) :
    ∃ byUser, service.dropSession user id = { service with byUser := byUser } := by
  unfold dropSession
  split
  · exact ⟨_, rfl⟩
  · exact ⟨_, rfl⟩

theorem dropPid_frame (pid : UInt32) (id : ClientID) :
    ∃ byPid, service.dropPid pid id = { service with byPid := byPid } := by
  unfold dropPid
  split
  · exact ⟨_, rfl⟩
  · exact ⟨_, rfl⟩

theorem dropSubscriber_frame (id : ClientID) (key : TopicKey) :
    ∃ topics, service.dropSubscriber id key = { service with topics := topics } := by
  unfold dropSubscriber
  split
  · exact ⟨_, rfl⟩
  · exact ⟨_, rfl⟩

theorem dropRegistration_frame (id : ClientID) :
    ∃ byUser byPid, service.dropRegistration id =
      { service with byUser := byUser, byPid := byPid } := by
  unfold dropRegistration
  dsimp only
  split
  · obtain ⟨byUser, users⟩ := @dropSession_frame service (service.client id).userid id
    obtain ⟨byPid, pids⟩ := @dropPid_frame (service.dropSession (service.client id).userid id)
      (service.client id).pid id
    exact ⟨byUser, byPid, by rw [pids, users]⟩
  · exact ⟨_, _, rfl⟩

structure DroppedTopics (id : ClientID) (keys : List TopicKey) (before after : Service) :
    Prop where
  frame : ∃ topics, after = { before with topics := topics }
  subscribers : ∀ key, after.subscribers key =
    if key ∈ keys then (before.subscribers key).erase id else before.subscribers key
  noEmpty : (∀ key, before.topics.get? key ≠ some ∅) → ∀ key, after.topics.get? key ≠ some ∅

theorem droppedTopics_foldl (id : ClientID) (keys : List TopicKey) :
    DroppedTopics id keys service
      (keys.foldl (fun service key => service.dropSubscriber id key) service) := by
  induction keys generalizing service with
  | nil => exact ⟨⟨_, rfl⟩, fun _ => rfl, fun noEmpty => noEmpty⟩
  | cons first rest ih =>
      rw [List.foldl_cons]
      have later := @ih (service.dropSubscriber id first)
      constructor
      · obtain ⟨topics, here⟩ := @dropSubscriber_frame service id first
        obtain ⟨others, next⟩ := later.frame
        exact ⟨others, by rw [next, here]⟩
      · intro key
        rw [later.subscribers, subscribers_dropSubscriber]
        by_cases isFirst : key = first
        · rw [if_pos isFirst, isFirst, if_pos List.mem_cons_self, Finset.erase_idem, ite_self]
        · rw [if_neg isFirst]
          simp only [List.mem_cons, isFirst, false_or]
      · intro noEmpty
        exact later.noEmpty (fun key => topics_dropSubscriber_ne_empty id first key noEmpty)

structure Removed (id : ClientID) (before after : Service) : Prop where
  clients : after.clients = before.clients.erase id
  client : after.client = Function.update before.client id
    { before.client id with topics := ∅ }
  sessions : ∀ user item, (after.sessions user).count item =
    if (before.client id).registered = true ∧ user = (before.client id).userid ∧ item = id then 0
    else (before.sessions user).count item
  byPid : ∀ pid, after.byPid.get? pid =
    if (before.client id).registered = true ∧ 0 < (before.client id).pid ∧
        pid = (before.client id).pid ∧ before.byPid.get? pid = some id then none
    else before.byPid.get? pid
  subscribers : ∀ key, after.subscribers key =
    if key ∈ (before.client id).topics then (before.subscribers key).erase id
    else before.subscribers key
  noEmptyList : (∀ user, before.byUser.get? user ≠ some []) →
    ∀ user, after.byUser.get? user ≠ some []
  noEmptyTopic : (∀ key, before.topics.get? key ≠ some ∅) →
    ∀ key, after.topics.get? key ≠ some ∅

theorem removed_removeClient (id : ClientID) : Removed id service (service.removeClient id) := by
  unfold removeClient
  dsimp only
  generalize client : service.client id = own
  generalize erasing : ({ service with clients := service.clients.erase id } : Service) = erased
  -- The index of users and pids first, then the topics.
  generalize dropping : (if own.registered = true then
    (erased.dropSession own.userid id).dropPid own.pid id else erased) = dropped
  have droppedFrame : ∃ byUser byPid,
      dropped = { erased with byUser := byUser, byPid := byPid } := by
    rw [← dropping]
    split
    · obtain ⟨byUser, users⟩ := @dropSession_frame erased own.userid id
      obtain ⟨byPid, pids⟩ := @dropPid_frame (erased.dropSession own.userid id) own.pid id
      exact ⟨byUser, byPid, by rw [pids, users]⟩
    · exact ⟨_, _, rfl⟩
  have topics := @droppedTopics_foldl dropped id (own.topics.sort (· ≤ ·))
  generalize (own.topics.sort (· ≤ ·)).foldl (fun service key => service.dropSubscriber id key)
    dropped = left at topics
  obtain ⟨byUser, byPid, droppedEq⟩ := droppedFrame
  obtain ⟨leftTopics, leftEq⟩ := topics.frame
  constructor
  · rw [leftEq, droppedEq, ← erasing]
    rfl
  · rw [leftEq, droppedEq, ← erasing, client]
    rfl
  · intro user item
    rw [client]
    have same : (left.setClient id { own with topics := ∅ }).sessions user =
        dropped.sessions user := by
      rw [leftEq]
      rfl
    rw [same, ← dropping]
    split
    · rename_i registered
      have pidOnly : ((erased.dropSession own.userid id).dropPid own.pid id).sessions user =
          (erased.dropSession own.userid id).sessions user := by
        obtain ⟨byPid, pids⟩ := @dropPid_frame (erased.dropSession own.userid id) own.pid id
        rw [pids]
        rfl
      rw [pidOnly, count_dropSession, ← erasing]
      simp only [registered, true_and]
      rfl
    · rename_i registered
      rw [if_neg (fun parts => registered parts.1), ← erasing]
      rfl
  · intro pid
    rw [client]
    have same : (left.setClient id { own with topics := ∅ }).byPid = dropped.byPid := by
      rw [leftEq]
      rfl
    rw [same, ← dropping]
    split
    · rename_i registered
      have userOnly : (erased.dropSession own.userid id).byPid = service.byPid := by
        obtain ⟨byUser, users⟩ := @dropSession_frame erased own.userid id
        rw [users, ← erasing]
      rw [byPid_dropPid, userOnly]
      simp only [registered, true_and]
      by_cases held : 0 < own.pid ∧ pid = own.pid
      · rw [held.2]
      · rw [if_neg (fun parts => held ⟨parts.1, parts.2.1⟩),
          if_neg (fun parts => held ⟨parts.1, parts.2.1⟩)]
    · rename_i registered
      rw [if_neg (fun parts => registered parts.1), ← erasing]
  · intro key
    rw [client]
    have before : dropped.subscribers key = service.subscribers key := by
      rw [droppedEq, ← erasing]
      rfl
    have same : (left.setClient id { own with topics := ∅ }).subscribers key =
        left.subscribers key := rfl
    rw [same, topics.subscribers, before]
    simp only [Finset.mem_sort]
  · intro noEmpty user
    have same : (left.setClient id { own with topics := ∅ }).byUser = dropped.byUser := by
      rw [leftEq]
      rfl
    have erasedUsers : erased.byUser = service.byUser := by rw [← erasing]
    rw [same, ← dropping]
    split
    · obtain ⟨byPid, pids⟩ := @dropPid_frame (erased.dropSession own.userid id) own.pid id
      rw [pids]
      exact byUser_dropSession_ne_nil _ _ _ (by rw [erasedUsers]; exact noEmpty)
    · rw [erasedUsers]
      exact noEmpty user
  · intro noEmpty key
    refine topics.noEmpty ?_ key
    rw [droppedEq, ← erasing]
    exact noEmpty

inductive Effect (toLower : Bytes → Bytes) (service : Service) (id : ClientID)
    (packet : Packet) : Service → Prop where
  | register (payload : RegisterPayload) (command : packet.command = .register)
      (decoded : decodeRegisterPayload packet.payload = some payload) :
      Effect toLower service id packet (service.register toLower id payload)
  | unregister (command : packet.command = .unregister) :
      Effect toLower service id packet (service.unregister id)
  | subscribe (key : TopicKey) (quiet : ∀ last, packet.lifecycle toLower last = last) :
      Effect toLower service id packet (service.subscribe id key)
  | unsubscribe (key : TopicKey) (quiet : ∀ last, packet.lifecycle toLower last = last) :
      Effect toLower service id packet (service.unsubscribe id key)
  | counted (stats : Stats) (quiet : ∀ last, packet.lifecycle toLower last = last) :
      Effect toLower service id packet { service with stats := stats }

theorem dispatch_effect (around : Surroundings) (id : ClientID) (packet : Packet) :
    Effect around.toLower service id packet (service.dispatch around id packet).1 := by
  have quiet : packet.command ≠ .register → packet.command ≠ .unregister →
      ∀ last, packet.lifecycle around.toLower last = last := by
    intro notRegister notUnregister last
    unfold Packet.lifecycle
    split
    · contradiction
    · contradiction
    · rfl
  have delivered : ∀ user seq inner stats, (∀ last, packet.lifecycle around.toLower last = last) →
      Effect around.toLower service id packet
        (service.deliver around id user seq inner stats).1 := by
    intro user seq inner stats still
    unfold deliver
    split
    · exact .counted _ still
    · exact .counted _ still
  unfold dispatch
  cases command : packet.command with
  | register =>
      dsimp only
      cases decoded : decodeRegisterPayload packet.payload with
      | none =>
          refine .counted _ ?_
          intro last
          unfold Packet.lifecycle
          rw [command]
          dsimp only
          rw [decoded]
      | some payload => exact .register payload command decoded
  | unregister => exact .unregister command
  | ping => exact .counted _ (quiet (by rw [command]; decide) (by rw [command]; decide))
  | statsReq => exact .counted _ (quiet (by rw [command]; decide) (by rw [command]; decide))
  | wmsgSend =>
      have still := quiet (by rw [command]; decide) (by rw [command]; decide)
      dsimp only
      cases decodeWmsgPayload packet.payload with
      | none => exact .counted _ still
      | some user => exact delivered _ _ _ _ still
  | talkReq =>
      have still := quiet (by rw [command]; decide) (by rw [command]; decide)
      dsimp only
      cases decodeTalkPayload packet.payload with
      | none => exact .counted _ still
      | some user => exact delivered _ _ _ _ still
  | chatMsg =>
      have still := quiet (by rw [command]; decide) (by rw [command]; decide)
      dsimp only
      cases validChatPayload packet.payload with
      | false => exact .counted _ still
      | true => exact .counted _ still
  | sub =>
      have still := quiet (by rw [command]; decide) (by rw [command]; decide)
      dsimp only
      cases decodePubSubPayload packet.payload with
      | none => exact .counted _ still
      | some payload =>
          dsimp only
          cases payload.key.bid = 0 || payload.key.aid = 0 with
          | false => exact .subscribe _ still
          | true => exact .counted _ still
  | unsub =>
      have still := quiet (by rw [command]; decide) (by rw [command]; decide)
      dsimp only
      cases decodePubSubPayload packet.payload with
      | none => exact .counted _ still
      | some payload => exact .unsubscribe _ still
  | pub =>
      have still := quiet (by rw [command]; decide) (by rw [command]; decide)
      dsimp only
      cases decodePubSubPayload packet.payload with
      | none => exact .counted _ still
      | some payload => exact .counted _ still
  | sysBroadcast => exact .counted _ (quiet (by rw [command]; decide) (by rw [command]; decide))
  | unknown => exact .counted _ (quiet (by rw [command]; decide) (by rw [command]; decide))

end Service

/-! ### Steps and runs -/

namespace Daemon

structure Kept (daemon : Daemon) : Prop where
  users : ∀ user id, (daemon.service.sessions user).count id =
    if id ∈ daemon.connected ∧ (daemon.last id).map Prod.fst = some user then 1 else 0
  pids : ∀ pid id, daemon.service.byPid.get? pid = some id →
    0 < pid ∧ id ∈ daemon.connected ∧ (daemon.last id).map Prod.snd = some pid
  topics : ∀ key id, id ∈ daemon.service.subscribers key ↔
    id ∈ daemon.connected ∧ key ∈ (daemon.service.client id).topics
  noEmptyList : ∀ user, daemon.service.byUser.get? user ≠ some []
  noEmptyTopic : ∀ key, daemon.service.topics.get? key ≠ some ∅
  clients : ∀ id ∈ daemon.service.clients, id ∈ daemon.connected
  fields : ∀ id ∈ daemon.connected, daemon.last id =
    if (daemon.service.client id).registered then
      some ((daemon.service.client id).userid, (daemon.service.client id).pid)
    else none
  fresh : ∀ id, daemon.nextID ≤ id → id ∉ daemon.connected ∧
    (daemon.service.client id).registered = false ∧ (daemon.service.client id).topics = ∅ ∧
    daemon.last id = none

theorem Kept.consistent {daemon : Daemon} (kept : daemon.Kept) : daemon.Consistent where
  users := kept.users
  pids := fun pid id held => (kept.pids pid id held).2
  topics := kept.topics
  noEmptyList := kept.noEmptyList
  noEmptyTopic := kept.noEmptyTopic
  gone := by
    intro id away
    refine ⟨fun member => away (kept.clients id member), ?_, ?_, ?_⟩
    · intro user member
      have counted := kept.users user id
      rw [if_neg (fun parts => away parts.1), List.count_eq_zero] at counted
      exact counted member
    · intro pid held
      exact away (kept.pids pid id held).2.1
    · intro key member
      exact away ((kept.topics key id).mp member).1

theorem kept_start : Kept {} where
  users := by
    intro user id
    rw [if_neg (fun parts => absurd parts.1 (Finset.notMem_empty id))]
    rfl
  pids := fun pid id held => nomatch held
  topics := by
    intro key id
    constructor
    · intro member
      exact absurd member (Finset.notMem_empty id)
    · intro parts
      exact absurd parts.1 (Finset.notMem_empty id)
  noEmptyList := fun user held => nomatch held
  noEmptyTopic := fun key held => nomatch held
  clients := fun id member => absurd member (Finset.notMem_empty id)
  fields := fun id member => absurd member (Finset.notMem_empty id)
  fresh := fun id _new => ⟨Finset.notMem_empty id, rfl, rfl, rfl⟩

theorem kept_accept {daemon : Daemon} (kept : daemon.Kept) : (daemon.step .accept).Kept := by
  obtain ⟨away, unregistered, noTopics, noLast⟩ := kept.fresh daemon.nextID (le_refl _)
  have other : ∀ id, id ∈ insert daemon.nextID daemon.connected → id ≠ daemon.nextID →
      id ∈ daemon.connected := fun id member different =>
    (Finset.mem_insert.mp member).resolve_left different
  constructor
  · intro user id
    change (daemon.service.sessions user).count id = if id ∈ insert daemon.nextID daemon.connected ∧
      (daemon.last id).map Prod.fst = some user then 1 else 0
    rw [kept.users]
    by_cases new : id = daemon.nextID
    · rw [new, noLast, if_neg (fun parts => nomatch parts.2), if_neg (fun parts => nomatch parts.2)]
    · simp only [Finset.mem_insert, new, false_or]
  · intro pid id held
    obtain ⟨positive, member, same⟩ := kept.pids pid id held
    exact ⟨positive, Finset.mem_insert_of_mem member, same⟩
  · intro key id
    change id ∈ daemon.service.subscribers key ↔
      id ∈ insert daemon.nextID daemon.connected ∧ key ∈ (daemon.service.client id).topics
    rw [kept.topics]
    constructor
    · intro parts
      exact ⟨Finset.mem_insert_of_mem parts.1, parts.2⟩
    · intro parts
      refine ⟨other id parts.1 ?_, parts.2⟩
      rintro rfl
      rw [noTopics] at parts
      exact absurd parts.2 (Finset.notMem_empty key)
  · exact kept.noEmptyList
  · exact kept.noEmptyTopic
  · intro id member
    rcases Finset.mem_insert.mp member with new | old
    · rw [new]
      exact Finset.mem_insert_self _ _
    · exact Finset.mem_insert_of_mem (kept.clients id old)
  · intro id member
    change daemon.last id = if (daemon.service.client id).registered = true then
      some ((daemon.service.client id).userid, (daemon.service.client id).pid) else none
    by_cases new : id = daemon.nextID
    · rw [new, noLast, unregistered]
      rfl
    · exact kept.fields id (other id member new)
  · intro id beyond
    obtain ⟨absent, rest⟩ := kept.fresh id (Nat.le_of_succ_le beyond)
    refine ⟨?_, rest⟩
    intro member
    exact absent (other id member (Nat.ne_of_gt beyond))

structure Cleared (id : ClientID) (before after : Service) : Prop where
  sessions : ∀ user item, (after.sessions user).count item =
    if item = id then 0 else (before.sessions user).count item
  byPid : ∀ pid item, after.byPid.get? pid = some item ↔
    before.byPid.get? pid = some item ∧ item ≠ id
  noEmptyList : ∀ user, after.byUser.get? user ≠ some []

section

variable {daemon : Daemon} (kept : daemon.Kept) {id : ClientID}

include kept

theorem Kept.count_of_fields (member : id ∈ daemon.connected) (user : Bytes) :
    (daemon.service.sessions user).count id =
      if (daemon.service.client id).registered = true ∧
        user = (daemon.service.client id).userid then 1 else 0 := by
  rw [kept.users, kept.fields id member]
  by_cases registered : (daemon.service.client id).registered = true
  · rw [if_pos registered]
    by_cases own : user = (daemon.service.client id).userid
    · rw [if_pos ⟨member, by rw [own]; rfl⟩, if_pos ⟨registered, own⟩]
    · rw [if_neg (fun parts => own (Option.some.inj parts.2).symm),
        if_neg (fun parts => own parts.2)]
  · rw [if_neg registered, if_neg (fun parts => nomatch parts.2),
      if_neg (fun parts => registered parts.1)]

theorem Kept.pid_of_fields {pid : UInt32}
    (held : daemon.service.byPid.get? pid = some id) :
    0 < pid ∧ (daemon.service.client id).registered = true ∧
      pid = (daemon.service.client id).pid := by
  obtain ⟨positive, member, same⟩ := kept.pids pid id held
  rw [kept.fields id member] at same
  by_cases registered : (daemon.service.client id).registered = true
  · rw [if_pos registered] at same
    exact ⟨positive, registered, (Option.some.inj same).symm⟩
  · rw [if_neg registered] at same
    cases same

theorem cleared_of_fields (member : id ∈ daemon.connected) {after : Service}
    (sessions : ∀ user item, (after.sessions user).count item =
      if (daemon.service.client id).registered = true ∧
          user = (daemon.service.client id).userid ∧ item = id then 0
      else (daemon.service.sessions user).count item)
    (byPid : ∀ pid, after.byPid.get? pid =
      if (daemon.service.client id).registered = true ∧ 0 < (daemon.service.client id).pid ∧
          pid = (daemon.service.client id).pid ∧ daemon.service.byPid.get? pid = some id then none
      else daemon.service.byPid.get? pid)
    (noEmptyList : ∀ user, after.byUser.get? user ≠ some []) :
    Cleared id daemon.service after where
  sessions := by
    intro user item
    rw [sessions]
    by_cases same : item = id
    · rw [if_pos same, same, kept.count_of_fields member]
      by_cases own : (daemon.service.client id).registered = true ∧
          user = (daemon.service.client id).userid
      · rw [if_pos ⟨own.1, own.2, rfl⟩]
      · rw [if_neg (fun parts => own ⟨parts.1, parts.2.1⟩), if_neg own]
    · rw [if_neg same, if_neg (fun parts => same parts.2.2)]
  byPid := by
    intro pid item
    rw [byPid]
    by_cases held : daemon.service.byPid.get? pid = some id
    · obtain ⟨positive, registered, own⟩ := kept.pid_of_fields held
      rw [if_pos ⟨registered, own ▸ positive, own, held⟩, held]
      constructor
      · intro none
        cases none
      · rintro ⟨same, different⟩
        exact absurd (Option.some.inj same).symm different
    · rw [if_neg (fun parts => held parts.2.2.2)]
      constructor
      · intro other
        refine ⟨other, ?_⟩
        rintro rfl
        exact held other
      · intro parts
        exact parts.1
  noEmptyList := noEmptyList

theorem Kept.cleared_removeClient (member : id ∈ daemon.connected) :
    Cleared id daemon.service (daemon.service.removeClient id) :=
  have removed := @Service.removed_removeClient daemon.service id
  cleared_of_fields kept member removed.sessions removed.byPid
    (removed.noEmptyList kept.noEmptyList)

theorem Kept.subscribers_removeClient (member : id ∈ daemon.connected) (key : TopicKey)
    (item : ClientID) :
    item ∈ (daemon.service.removeClient id).subscribers key ↔
      item ≠ id ∧ item ∈ daemon.service.subscribers key := by
  have removed := @Service.removed_removeClient daemon.service id
  rw [removed.subscribers]
  by_cases own : key ∈ (daemon.service.client id).topics
  · rw [if_pos own, Finset.mem_erase]
  · rw [if_neg own]
    constructor
    · intro present
      refine ⟨?_, present⟩
      rintro rfl
      exact own ((kept.topics key item).mp present).2
    · intro parts
      exact parts.2

theorem kept_removed (member : id ∈ daemon.connected) {connected : Finset ClientID}
    {client : ClientID → Client} {stats : Stats}
    (others : ∀ item, item ≠ id → (item ∈ connected ↔ item ∈ daemon.connected) ∧
      client item = daemon.service.client item)
    (own : id ∈ connected → (client id).registered = false ∧ (client id).topics = ∅) :
    Kept { daemon with
      service := { daemon.service.removeClient id with client := client, stats := stats }
      connected := connected
      last := Function.update daemon.last id none } := by
  have cleared := kept.cleared_removeClient member
  have topics := kept.subscribers_removeClient member
  have removed := @Service.removed_removeClient daemon.service id
  constructor
  · intro user item
    change ((daemon.service.removeClient id).sessions user).count item = if
      item ∈ connected ∧ (Function.update daemon.last id none item).map Prod.fst = some user
      then 1 else 0
    rw [cleared.sessions]
    by_cases same : item = id
    · rw [if_pos same, if_neg]
      rw [same, Function.update_self]
      exact fun parts => nomatch parts.2
    · rw [if_neg same, kept.users, Function.update_of_ne same]
      simp only [(others item same).1]
  · intro pid item held
    obtain ⟨before, different⟩ := (cleared.byPid pid item).mp held
    obtain ⟨positive, there, own⟩ := kept.pids pid item before
    refine ⟨positive, (others item different).1.mpr there, ?_⟩
    change (Function.update daemon.last id none item).map Prod.snd = some pid
    rw [Function.update_of_ne different]
    exact own
  · intro key item
    change item ∈ (daemon.service.removeClient id).subscribers key ↔
      item ∈ connected ∧ key ∈ (client item).topics
    rw [topics, kept.topics]
    by_cases same : item = id
    · subst same
      refine iff_of_false (fun parts => parts.1 rfl) fun parts => ?_
      rw [(own parts.1).2] at parts
      exact Finset.notMem_empty key parts.2
    · rw [(others item same).1, (others item same).2, and_iff_right same]
  · exact cleared.noEmptyList
  · exact removed.noEmptyTopic kept.noEmptyTopic
  · intro item there
    change item ∈ (daemon.service.removeClient id).clients at there
    rw [removed.clients, Finset.mem_erase] at there
    exact (others item there.1).1.mpr (kept.clients item there.2)
  · intro item there
    change Function.update daemon.last id none item =
      if (client item).registered = true then some ((client item).userid, (client item).pid)
      else none
    by_cases same : item = id
    · subst same
      rw [Function.update_self, (own there).1]
      rfl
    · rw [Function.update_of_ne same, (others item same).2]
      exact kept.fields item ((others item same).1.mp there)
  · intro item beyond
    obtain ⟨away, rest⟩ := kept.fresh item beyond
    have different : item ≠ id := fun same => away (same ▸ member)
    change item ∉ connected ∧ (client item).registered = false ∧ (client item).topics = ∅ ∧
      Function.update daemon.last id none item = none
    rw [(others item different).1, (others item different).2, Function.update_of_ne different]
    exact ⟨away, rest⟩

theorem kept_disconnect (member : id ∈ daemon.connected) : (daemon.step (.disconnect id)).Kept := by
  have removed := @Service.removed_removeClient daemon.service id
  simp only [step, if_pos member]
  refine @kept_removed daemon kept id member (daemon.connected.erase id)
    (daemon.service.removeClient id).client _ (fun item different => ⟨?_, ?_⟩) fun there =>
      absurd there (Finset.notMem_erase id _)
  · rw [Finset.mem_erase, and_iff_right different]
  · rw [removed.client, Function.update_of_ne different]

end

def afterPacket (daemon : Daemon) (id : ClientID) (service : Service)
    (last : Option (Bytes × UInt32)) : Daemon :=
  { daemon with service := service, last := Function.update daemon.last id last }

section

variable {daemon : Daemon} (kept : daemon.Kept) {id : ClientID} (member : id ∈ daemon.connected)

include kept member

theorem kept_unregister :
    (daemon.afterPacket id (daemon.service.unregister id) none).Kept := by
  have removed := @Service.removed_removeClient daemon.service id
  have client : (daemon.service.unregister id).client = Function.update daemon.service.client id
      { daemon.service.client id with topics := ∅, registered := false } := by
    change Function.update (daemon.service.removeClient id).client id
      { (daemon.service.removeClient id).client id with registered := false } = _
    rw [removed.client, Function.update_idem, Function.update_self]
  refine kept_removed kept member (fun item different => ⟨Iff.rfl, ?_⟩) fun _ => ?_
  · change (daemon.service.unregister id).client item = _
    rw [client, Function.update_of_ne different]
  · change ((daemon.service.unregister id).client id).registered = false ∧
      ((daemon.service.unregister id).client id).topics = ∅
    rw [client, Function.update_self]
    exact ⟨rfl, rfl⟩

theorem Kept.cleared_reregister (named : (daemon.last id).map Prod.fst ≠ some []) :
    Cleared id daemon.service (daemon.service.dropRegistration id) := by
  unfold Service.dropRegistration
  dsimp only
  generalize client : daemon.service.client id = own
  have hasName : own.registered = true → own.userid ≠ [] := by
    intro registered none
    rw [kept.fields id member, client, if_pos registered, none] at named
    exact named rfl
  apply cleared_of_fields kept member
  · intro user item
    rw [client]
    by_cases registered : own.registered = true
    · rw [if_pos (by simp [registered, hasName registered])]
      obtain ⟨byPid, pids⟩ :=
        @Service.dropPid_frame (daemon.service.dropSession own.userid id) own.pid id
      rw [pids]
      change ((daemon.service.dropSession own.userid id).sessions user).count item = _
      rw [Service.count_dropSession]
      simp only [registered, true_and]
    · rw [if_neg (by simp [registered]), if_neg (fun parts => registered parts.1)]
  · intro pid
    rw [client]
    by_cases registered : own.registered = true
    · rw [if_pos (by simp [registered, hasName registered]), Service.byPid_dropPid]
      obtain ⟨byUser, users⟩ := @Service.dropSession_frame daemon.service own.userid id
      rw [users]
      simp only [registered, true_and]
      by_cases held : 0 < own.pid ∧ pid = own.pid
      · rw [held.2]
      · rw [if_neg (fun parts => held ⟨parts.1, parts.2.1⟩),
          if_neg (fun parts => held ⟨parts.1, parts.2.1⟩)]
    · rw [if_neg (by simp [registered]), if_neg (fun parts => registered parts.1)]
  · intro user
    split
    · obtain ⟨byPid, pids⟩ :=
        @Service.dropPid_frame (daemon.service.dropSession own.userid id) own.pid id
      rw [pids]
      exact Service.byUser_dropSession_ne_nil _ _ _ kept.noEmptyList
    · exact kept.noEmptyList user

theorem kept_register (named : (daemon.last id).map Prod.fst ≠ some [])
    (toLower : Bytes → Bytes) (payload : RegisterPayload) :
    (daemon.afterPacket id (daemon.service.register toLower id payload)
      (some (toLower payload.userID, payload.pid))).Kept := by
  have cleared := kept.cleared_reregister member named
  obtain ⟨byUser, byPid, readyEq⟩ := @Service.dropRegistration_frame daemon.service id
  have client : (daemon.service.dropRegistration id).client = daemon.service.client := by
    rw [readyEq]
  unfold afterPacket Service.register Service.setClient
  dsimp only
  rw [client]
  generalize daemon.service.dropRegistration id = ready at cleared readyEq client ⊢
  constructor
  · intro user item
    change (((ready.byUser.set (toLower payload.userID)
      (ready.sessions (toLower payload.userID) ++ [id])).get? user).getD []).count item = if
      item ∈ daemon.connected ∧ (Function.update daemon.last id
        (some (toLower payload.userID, payload.pid)) item).map Prod.fst = some user then 1 else 0
    rw [OrderedMap.get?_set]
    by_cases sameUser : user = toLower payload.userID
    · rw [if_pos sameUser, Option.getD_some, List.count_append, cleared.sessions]
      by_cases same : item = id
      · rw [if_pos same, same, Function.update_self, if_pos ⟨member, by rw [sameUser]; rfl⟩]
        simp
      · have single : [id].count item = 0 := List.count_eq_zero.mpr (by simpa using same)
        rw [single, Nat.add_zero, if_neg same, kept.users, Function.update_of_ne same, sameUser]
    · rw [if_neg sameUser]
      change (ready.sessions user).count item = _
      rw [cleared.sessions]
      by_cases same : item = id
      · rw [if_pos same, same, Function.update_self, if_neg]
        exact fun parts => sameUser (Option.some.inj parts.2).symm
      · rw [if_neg same, kept.users, Function.update_of_ne same]
  · intro number item held
    change (if 0 < payload.pid then ready.byPid.set payload.pid id
      else ready.byPid).get? number = some item at held
    change 0 < number ∧ item ∈ daemon.connected ∧ (Function.update daemon.last id
      (some (toLower payload.userID, payload.pid)) item).map Prod.snd = some number
    have old : ready.byPid.get? number = some item → 0 < number ∧ item ∈ daemon.connected ∧
        (Function.update daemon.last id
          (some (toLower payload.userID, payload.pid)) item).map Prod.snd = some number := by
      intro there
      obtain ⟨before, different⟩ := (cleared.byPid number item).mp there
      rw [Function.update_of_ne different]
      exact kept.pids number item before
    split at held
    · rename_i positive
      rw [OrderedMap.get?_set] at held
      split at held
      · rename_i same
        cases held
        rw [same, Function.update_self]
        exact ⟨positive, member, rfl⟩
      · exact old held
    · exact old held
  · intro key item
    change item ∈ ready.subscribers key ↔ item ∈ daemon.connected ∧
      key ∈ (Function.update daemon.service.client id
      (Service.registeredAs (daemon.service.client id) (toLower payload.userID) payload) item).topics
    have sameSubscribers : ready.subscribers key = daemon.service.subscribers key := by
      rw [readyEq]
      rfl
    rw [sameSubscribers, kept.topics]
    by_cases same : item = id
    · rw [same, Function.update_self]
      rfl
    · rw [Function.update_of_ne same]
  · intro user
    change (ready.byUser.set (toLower payload.userID)
      (ready.sessions (toLower payload.userID) ++ [id])).get? user ≠ some []
    rw [OrderedMap.get?_set]
    split
    · intro none
      have empty := Option.some.inj none
      simp at empty
    · exact cleared.noEmptyList user
  · intro key
    rw [readyEq]
    exact kept.noEmptyTopic key
  · intro item there
    rw [readyEq] at there
    exact kept.clients item there
  · intro item there
    change Function.update daemon.last id (some (toLower payload.userID, payload.pid)) item =
      if (Function.update daemon.service.client id
      (Service.registeredAs (daemon.service.client id) (toLower payload.userID) payload) item).registered = true then
        some ((Function.update daemon.service.client id
      (Service.registeredAs (daemon.service.client id) (toLower payload.userID) payload) item).userid,
          (Function.update daemon.service.client id
      (Service.registeredAs (daemon.service.client id) (toLower payload.userID) payload) item).pid) else none
    by_cases same : item = id
    · rw [same, Function.update_self, Function.update_self]
      rfl
    · rw [Function.update_of_ne same, Function.update_of_ne same]
      exact kept.fields item there
  · intro item beyond
    obtain ⟨away, rest⟩ := kept.fresh item beyond
    have different : item ≠ id := fun same => away (same ▸ member)
    change item ∉ daemon.connected ∧
      (Function.update daemon.service.client id
      (Service.registeredAs (daemon.service.client id) (toLower payload.userID) payload) item).registered = false ∧
      (Function.update daemon.service.client id
      (Service.registeredAs (daemon.service.client id) (toLower payload.userID) payload) item).topics = ∅ ∧
      Function.update daemon.last id (some (toLower payload.userID, payload.pid)) item = none
    rw [Function.update_of_ne different, Function.update_of_ne different]
    exact ⟨away, rest⟩

theorem kept_topics {topics : Finset TopicKey} {after : Service}
    (service : ∃ index, after =
      { daemon.service with
        topics := index
        client := Function.update daemon.service.client id
          { daemon.service.client id with topics := topics } })
    (subscribers : ∀ key item, item ∈ after.subscribers key ↔
      if item = id then key ∈ topics else item ∈ daemon.service.subscribers key)
    (noEmpty : ∀ key, after.topics.get? key ≠ some ∅) :
    (daemon.afterPacket id after (daemon.last id)).Kept := by
  obtain ⟨index, afterEq⟩ := service
  have still : Function.update daemon.last id (daemon.last id) = daemon.last :=
    Function.update_eq_self _ _
  unfold afterPacket
  rw [still]
  constructor
  · rw [afterEq]
    exact kept.users
  · rw [afterEq]
    exact kept.pids
  · intro key item
    dsimp only
    rw [subscribers, afterEq]
    dsimp only
    by_cases same : item = id
    · rw [if_pos same, same, Function.update_self]
      exact ⟨fun own => ⟨member, own⟩, fun parts => parts.2⟩
    · rw [if_neg same, Function.update_of_ne same]
      exact kept.topics key item
  · rw [afterEq]
    exact kept.noEmptyList
  · exact noEmpty
  · rw [afterEq]
    exact kept.clients
  · intro item there
    rw [afterEq]
    by_cases same : item = id
    · simp only [same, Function.update_self]
      exact kept.fields id member
    · simp only [Function.update_of_ne same]
      exact kept.fields item there
  · intro item beyond
    obtain ⟨away, rest⟩ := kept.fresh item beyond
    have different : item ≠ id := fun same => away (same ▸ member)
    rw [afterEq]
    dsimp only
    rw [Function.update_of_ne different]
    exact ⟨away, rest⟩

theorem kept_subscribe (key : TopicKey) :
    (daemon.afterPacket id (daemon.service.subscribe id key) (daemon.last id)).Kept := by
  refine kept_topics kept member ⟨_, rfl⟩ ?_ ?_
  · intro other item
    change item ∈ ((daemon.service.topics.set key
      (insert id (daemon.service.subscribers key))).get? other).getD ∅ ↔ _
    rw [OrderedMap.get?_set]
    by_cases sameKey : other = key
    · rw [if_pos sameKey, Option.getD_some, Finset.mem_insert, sameKey]
      by_cases same : item = id
      · simp [same]
      · simp [same]
    · rw [if_neg sameKey]
      change item ∈ daemon.service.subscribers other ↔ _
      by_cases same : item = id
      · rw [if_pos same, same, Finset.mem_insert, kept.topics]
        simp [sameKey, member]
      · rw [if_neg same]
  · intro other
    change (daemon.service.topics.set key
      (insert id (daemon.service.subscribers key))).get? other ≠ some ∅
    rw [OrderedMap.get?_set]
    split
    · intro none
      exact Finset.insert_ne_empty _ _ (Option.some.inj none)
    · exact kept.noEmptyTopic other

theorem kept_unsubscribe (key : TopicKey) :
    (daemon.afterPacket id (daemon.service.unsubscribe id key) (daemon.last id)).Kept := by
  refine @kept_topics daemon kept id member ((daemon.service.client id).topics.erase key) _ ?_ ?_ ?_
  · obtain ⟨topics, dropped⟩ := @Service.dropSubscriber_frame
      (daemon.service.setClient id { daemon.service.client id with
        topics := (daemon.service.client id).topics.erase key }) id key
    exact ⟨topics, dropped⟩
  · intro other item
    unfold Service.unsubscribe
    dsimp only
    rw [Service.subscribers_dropSubscriber]
    change item ∈ (if other = key then (daemon.service.subscribers key).erase id
      else daemon.service.subscribers other) ↔ _
    by_cases sameKey : other = key
    · rw [if_pos sameKey, sameKey, Finset.mem_erase]
      by_cases same : item = id
      · simp [same]
      · simp [same]
    · rw [if_neg sameKey]
      by_cases same : item = id
      · rw [if_pos same, same, Finset.mem_erase, kept.topics]
        simp [sameKey, member]
      · rw [if_neg same]
  · intro other
    exact Service.topics_dropSubscriber_ne_empty id key other kept.noEmptyTopic

end

theorem kept_step {daemon : Daemon} (kept : daemon.Kept) (event : Event)
    (named : ¬ daemon.Renames event) : (daemon.step event).Kept := by
  cases event with
  | accept => exact kept_accept kept
  | disconnect id =>
      by_cases member : id ∈ daemon.connected
      · exact kept_disconnect kept member
      · simp only [step, if_neg member]
        exact kept
  | packet around id packet =>
      by_cases member : id ∈ daemon.connected
      · simp only [step, if_pos member]
        change (daemon.afterPacket id (daemon.service.dispatch around id packet).1
          (packet.lifecycle around.toLower (daemon.last id))).Kept
        have effect := @Service.dispatch_effect daemon.service around id packet
        generalize (daemon.service.dispatch around id packet).1 = after at effect
        cases effect with
        | register payload command decoded =>
            have said : packet.lifecycle around.toLower (daemon.last id) =
                some (around.toLower payload.userID, payload.pid) := by
              simp only [Packet.lifecycle, command, decoded]
            rw [said]
            refine kept_register kept member ?_ around.toLower payload
            intro empty
            exact named ⟨command, by rw [decoded]; rfl, member, empty⟩
        | unregister command =>
            have said : packet.lifecycle around.toLower (daemon.last id) = none := by
              simp only [Packet.lifecycle, command]
            rw [said]
            exact kept_unregister kept member
        | subscribe key quiet =>
            rw [quiet]
            exact kept_subscribe kept member key
        | unsubscribe key quiet =>
            rw [quiet]
            exact kept_unsubscribe kept member key
        | counted stats quiet =>
            rw [quiet]
            unfold afterPacket
            rw [Function.update_eq_self]
            exact ⟨kept.users, kept.pids, kept.topics, kept.noEmptyList, kept.noEmptyTopic,
              kept.clients, kept.fields, kept.fresh⟩
      · simp only [step, if_neg member]
        exact kept

/-- In every run in which no client registers again after the empty id, the
indexes of ipc.svc say what the clients say. -/
theorem consistent_run {events : List Event}
    (named : StepsMeet step (fun daemon event => ¬ daemon.Renames event) {} events) :
    (run step {} events).Consistent := by
  refine Kept.consistent (invariant_run ?_ kept_start named)
  intro daemon event kept meets
  exact kept_step kept event meets

instance decidableRenames (daemon : Daemon) (event : Event) : Decidable (daemon.Renames event) :=
  match event with
  | .packet _ _ _ => inferInstanceAs (Decidable (_ ∧ _ ∧ _ ∧ _))
  | .accept => isFalse id
  | .disconnect _ => isFalse id

def registerPacket (user : Bytes) (pid : UInt32) : Packet :=
  { type := typeRegister
    payload := stringToCstr user 16 ++ putUint32LE pid ++ putUint32LE 0 }

def twoClients : List Event :=
  [.accept, .packet {} 0 (registerPacket (utf8 "bob") 7),
    .packet {} 0 (registerPacket (utf8 "carol") 8), .accept,
    .packet {} 1 (registerPacket (utf8 "carol") 9), .disconnect 1]

theorem consistent_run_two_clients :
    (run step {} twoClients).Consistent ∧
      (run step {} twoClients).service.sessions (utf8 "carol") = [0] :=
  ⟨consistent_run (by decide +kernel), by decide +kernel⟩

def emptyThenNamed : List Event :=
  [.accept, .packet {} 0 (registerPacket [] 7), .packet {} 0 (registerPacket (utf8 "bob") 8),
    .disconnect 0]

theorem empty_id_kept :
    0 ∈ (run step {} emptyThenNamed).service.sessions [] ∧
      (run step {} emptyThenNamed).service.byPid.get? 7 = some 0 ∧
      ¬ (run step {} emptyThenNamed).Consistent := by
  have listed : 0 ∈ (run step {} emptyThenNamed).service.sessions [] := by decide +kernel
  have held : (run step {} emptyThenNamed).service.byPid.get? 7 = some 0 := by decide +kernel
  have away : 0 ∉ (run step {} emptyThenNamed).connected := by decide
  refine ⟨listed, held, ?_⟩
  intro consistent
  exact (consistent.gone 0 away).2.1 [] listed

end Daemon

end Pttbbs.IpcSvc
