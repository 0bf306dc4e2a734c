/-
The indexes of ipc.svc and the handling of one packet.

Under the lock a packet changes the indexes or copies the list of its targets.
What it sends, to the targets and to the client itself, is returned and queued
after the lock is released.  Log output is left out.
-/

import Mathlib.Data.Finset.Basic
import Mathlib.Data.Finset.Sort
import Pttbbs.IpcSvc.Protocol
import Pttbbs.Lib.OrderedMap

namespace Pttbbs.IpcSvc

open Pttbbs.Lib

abbrev ClientID := Nat

structure Client where
  userid : Bytes := []
  displayUserid : Bytes := []
  pid : UInt32 := 0
  uslot : Int32 := 0
  topics : Finset TopicKey := ∅
  registered : Bool := false

structure Stats where
  activeClients : Nat := 0
  totalWmsgSent : UInt64 := 0
  totalTalkReqs : UInt64 := 0
  totalLiveComments : UInt64 := 0
  totalPublishes : UInt64 := 0
  totalChatMsgs : UInt64 := 0

structure Service where
  clients : Finset ClientID := ∅
  byUser : OrderedMap Bytes (List ClientID) := OrderedMap.empty
  byPid : OrderedMap UInt32 ClientID := OrderedMap.empty
  topics : OrderedMap TopicKey (Finset ClientID) := OrderedMap.empty
  client : ClientID → Client := fun _ => {}
  stats : Stats := {}

/-- What a packet is answered with besides the state: `strings.ToLower`, the
counts of the other two servers and the time since the start. -/
structure Surroundings where
  toLower : Bytes → Bytes := id
  activeChess : UInt32 := 0
  activeXChat : UInt32 := 0
  uptime : UInt32 := 0

abbrev Send := ClientID × Bytes

namespace Service

def sessions (service : Service) (user : Bytes) : List ClientID :=
  (service.byUser.get? user).getD []

def subscribers (service : Service) (key : TopicKey) : Finset ClientID :=
  (service.topics.get? key).getD ∅

def setClient (service : Service) (id : ClientID) (client : Client) : Service :=
  { service with client := Function.update service.client id client }

def dropSession (service : Service) (user : Bytes) (id : ClientID) : Service :=
  match service.byUser.get? user with
  | none => service
  | some list =>
      { service with
        byUser := service.byUser.setUnless [] user (list.filter (fun item => item ≠ id)) }

def dropPid (service : Service) (pid : UInt32) (id : ClientID) : Service :=
  if 0 < pid && service.byPid.get? pid = some id then
    { service with byPid := service.byPid.delete pid }
  else service

def dropSubscriber (service : Service) (id : ClientID) (key : TopicKey) : Service :=
  match service.topics.get? key with
  | none => service
  | some subs =>
      { service with topics := service.topics.setUnless ∅ key (subs.erase id) }

def dropRegistration (service : Service) (id : ClientID) : Service :=
  let client := service.client id
  if client.registered && client.userid ≠ [] then
    (service.dropSession client.userid id).dropPid client.pid id
  else service

def registeredAs (client : Client) (user : Bytes) (payload : RegisterPayload) : Client :=
  { client with
    userid := user
    displayUserid := payload.userID
    pid := payload.pid
    uslot := payload.uslot
    registered := true }

def register (toLower : Bytes → Bytes) (service : Service) (id : ClientID)
    (payload : RegisterPayload) : Service :=
  let client := service.client id
  let user := toLower payload.userID
  let service := service.dropRegistration id
  let service := service.setClient id (registeredAs client user payload)
  { service with
    byUser := service.byUser.set user (service.sessions user ++ [id])
    byPid := if 0 < payload.pid then service.byPid.set payload.pid id else service.byPid }

def removeClient (service : Service) (id : ClientID) : Service :=
  let client := service.client id
  let service := { service with clients := service.clients.erase id }
  let service :=
    if client.registered then
      (service.dropSession client.userid id).dropPid client.pid id
    else service
  let service := (client.topics.sort (· ≤ ·)).foldl (fun service key =>
    service.dropSubscriber id key) service
  service.setClient id { client with topics := ∅ }

def unregister (service : Service) (id : ClientID) : Service :=
  let service := service.removeClient id
  service.setClient id { service.client id with registered := false }

def subscribe (service : Service) (id : ClientID) (key : TopicKey) : Service :=
  let client := service.client id
  let service := service.setClient id { client with topics := insert key client.topics }
  { service with topics := service.topics.set key (insert id (service.subscribers key)) }

def unsubscribe (service : Service) (id : ClientID) (key : TopicKey) : Service :=
  let client := service.client id
  (service.setClient id { client with topics := client.topics.erase key }).dropSubscriber id key

def statsPayload (around : Surroundings) (service : Service) : StatsPayload :=
  { activeClients := UInt32.ofNat service.stats.activeClients
    registeredUsers := UInt32.ofNat service.byUser.entries.length
    activeSessions := UInt32.ofNat service.byPid.entries.length
    activeTopics := UInt32.ofNat service.topics.entries.length
    activeChess := around.activeChess
    activeXChat := around.activeXChat
    totalWmsg := service.stats.totalWmsgSent
    totalTalk := service.stats.totalTalkReqs
    totalLive := service.stats.totalLiveComments
    uptimeSec := around.uptime }

def statsAnswer (service : Service) (around : Surroundings) (id : ClientID) (type : UInt16)
    (seq : UInt32) : Send :=
  (id, encodePacket
    { type := type
      seq := seq
      payload := (service.statsPayload around).encode })

/-- `SendAck`. -/
def ack (id : ClientID) (seq : UInt32) (code : Int32) (msg : String) : Send :=
  (id, makeAckPacket seq code msg)

/-- A packet for all sessions of a user.  The acknowledgement does not look at
how many of them took it. -/
def deliver (service : Service) (around : Surroundings) (id : ClientID) (user : Bytes)
    (seq : UInt32) (packet : Packet) (stats : Stats) : Service × List Send :=
  match service.sessions (around.toLower user) with
  | [] => (service, [ack id seq (-1) "target not online"])
  | targets =>
      ({ service with stats := stats },
        targets.map (fun target => (target, encodePacket packet)) ++
          [ack id seq 0 "delivered"])

/-- The state after a packet, and what is queued in this order. -/
def dispatch (around : Surroundings) (service : Service) (id : ClientID) (packet : Packet) :
    Service × List Send :=
  let seq := packet.seq
  match packet.command with
  | .register =>
      match decodeRegisterPayload packet.payload with
      | none => (service, [ack id seq (-1) "invalid register payload"])
      | some payload =>
          (service.register around.toLower id payload, [ack id seq 0 "registered"])
  | .unregister => (service.unregister id, [ack id seq 0 "unregistered"])
  | .ping => (service, [service.statsAnswer around id typePong seq])
  | .statsReq => (service, [service.statsAnswer around id typeStatsResp seq])
  | .wmsgSend =>
      match decodeWmsgPayload packet.payload with
      | none => (service, [ack id seq (-1) "invalid wmsg payload"])
      | some user =>
          service.deliver around id user seq { packet with type := typeWmsgDeliver }
            { service.stats with totalWmsgSent := service.stats.totalWmsgSent + 1 }
  | .talkReq =>
      match decodeTalkPayload packet.payload with
      | none => (service, [ack id seq (-1) "invalid talk payload"])
      | some user =>
          service.deliver around id user seq { packet with type := typeTalkReq }
            { service.stats with totalTalkReqs := service.stats.totalTalkReqs + 1 }
  | .chatMsg =>
      if validChatPayload packet.payload then
        ({ service with
            stats := { service.stats with totalChatMsgs := service.stats.totalChatMsgs + 1 } },
          [ack id seq 0 "sent"])
      else (service, [ack id seq (-1) "invalid chat payload"])
  | .sub =>
      match decodePubSubPayload packet.payload with
      | none => (service, [ack id seq (-1) "invalid pubsub payload"])
      | some payload =>
          if payload.key.bid = 0 || payload.key.aid = 0 then
            (service, [ack id seq (-1) "invalid bid or aid"])
          else (service.subscribe id payload.key, [ack id seq 0 "subscribed"])
  | .unsub =>
      match decodePubSubPayload packet.payload with
      | none => (service, [ack id seq (-1) "invalid pubsub payload"])
      | some payload =>
          (service.unsubscribe id payload.key,
            if seq = 0 then [] else [ack id seq 0 "unsubscribed"])
  | .pub =>
      match decodePubSubPayload packet.payload with
      | none => (service, if seq = 0 then [] else [ack id seq (-1) "invalid pubsub payload"])
      | some payload =>
          -- The source visits the subscribers in no particular order.
          let subs := (service.subscribers payload.key).sort (· ≤ ·)
          let comment := encodePacket
            { type := typeLiveComment, seq := seq, payload := payload.encode }
          ({ service with
              stats := { service.stats with
                totalLiveComments := service.stats.totalLiveComments + 1
                totalPublishes := service.stats.totalPublishes + 1 } },
            subs.map (fun target => (target, comment)) ++
              if seq = 0 then [] else [ack id seq 0 "published"])
  | .sysBroadcast =>
      let all := service.byUser.entries.flatMap Prod.snd
      (service, all.map (fun target =>
          (target, encodePacket { packet with type := typeSysBroadcast })) ++
        [ack id seq 0 "broadcasted"])
  | .unknown => (service, [ack id seq (-1) "unknown command"])

/-- `acceptLoop` for one connection. -/
def accept (service : Service) (id : ClientID) : Service :=
  { service with
    clients := insert id service.clients
    stats := { service.stats with activeClients := service.stats.activeClients + 1 } }

/-- What `handleClient` does when it ends, after closing the connection. -/
def disconnect (service : Service) (id : ClientID) : Service :=
  let service := service.removeClient id
  { service with
    stats := { service.stats with activeClients := service.stats.activeClients - 1 } }

end Service

end Pttbbs.IpcSvc
