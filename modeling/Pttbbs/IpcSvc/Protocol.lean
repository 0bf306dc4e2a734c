/-
The packets of ipc.svc.

A packet is a header of sixteen bytes and a payload whose fields stand at fixed
places, all numbers with their low byte first.  A payload is refused when it is
too short; what follows its last field is ignored.
-/

import Mathlib.Data.Prod.Lex
import Pttbbs.Lib.Bytes

namespace Pttbbs.IpcSvc

open Pttbbs.Lib

/-! ### Numbers -/

def putUint16LE (value : UInt16) : Bytes := (bigEndian 2 value.toNat).reverse

def putUint32LE (value : UInt32) : Bytes := (putUint32 value).reverse

def putUint64LE (value : UInt64) : Bytes := (putUint64 value).reverse

def uint32LE (bytes : Bytes) : UInt32 := uint32 bytes.reverse

def uint64LE (bytes : Bytes) : UInt64 := uint64 bytes.reverse

def slice (data : Bytes) (start stop : Nat) : Bytes := (data.drop start).take (stop - start)

/-! ### Headers -/

def ipcMagic : UInt32 := 0x49504356

def ipcVersion : UInt16 := 1

def typeRegister : UInt16 := 0x0001

def typeUnregister : UInt16 := 0x0002

def typeAck : UInt16 := 0x0003

def typePing : UInt16 := 0x0004

def typePong : UInt16 := 0x0005

def typeStatsReq : UInt16 := 0x0006

def typeStatsResp : UInt16 := 0x0007

def typeWmsgSend : UInt16 := 0x0010

def typeWmsgDeliver : UInt16 := 0x0011

def typeSub : UInt16 := 0x0020

def typeUnsub : UInt16 := 0x0021

def typePub : UInt16 := 0x0022

def typeLiveComment : UInt16 := 0x0023

def typeTalkReq : UInt16 := 0x0030

def typeChatMsg : UInt16 := 0x0040

def typeSysBroadcast : UInt16 := 0x0050

inductive Command where
  | register
  | unregister
  | ping
  | statsReq
  | wmsgSend
  | talkReq
  | chatMsg
  | sub
  | unsub
  | pub
  | sysBroadcast
  | unknown
deriving DecidableEq

def commandOfType (type : UInt16) : Command :=
  if type = typeRegister then .register
  else if type = typeUnregister then .unregister
  else if type = typePing then .ping
  else if type = typeStatsReq then .statsReq
  else if type = typeWmsgSend then .wmsgSend
  else if type = typeTalkReq then .talkReq
  else if type = typeChatMsg then .chatMsg
  else if type = typeSub then .sub
  else if type = typeUnsub then .unsub
  else if type = typePub then .pub
  else if type = typeSysBroadcast then .sysBroadcast
  else .unknown

structure Packet where
  type : UInt16
  seq : UInt32 := 0
  payload : Bytes := []
deriving DecidableEq

def Packet.command (packet : Packet) : Command := commandOfType packet.type

def encodePacket (packet : Packet) : Bytes :=
  putUint32LE ipcMagic ++ putUint16LE ipcVersion ++ putUint16LE packet.type ++
    putUint32LE packet.seq ++ putUint32LE (UInt32.ofNat packet.payload.length) ++ packet.payload

/-! ### Payloads -/

def cstrToString (bytes : Bytes) : Bytes := bytes.takeWhile (fun byte => byte ≠ 0)

/-- A text in a field of the given width, with a zero byte at its end. -/
def stringToCstr (text : Bytes) (width : Nat) : Bytes :=
  let kept := text.take (width - 1)
  kept ++ List.replicate (width - kept.length) 0

/-- `MakeAckPacket`; the code is written as an unsigned number. -/
def makeAckPacket (seq : UInt32) (code : Int32) (msg : String) : Bytes :=
  encodePacket
    { type := typeAck
      seq := seq
      payload := putUint32LE code.toUInt32 ++ stringToCstr (utf8 msg) 64 }

structure RegisterPayload where
  userID : Bytes
  pid : UInt32
  uslot : Int32
deriving DecidableEq

def decodeRegisterPayload (data : Bytes) : Option RegisterPayload :=
  if data.length < 24 then none
  else
    some
      { userID := cstrToString (slice data 0 16)
        pid := uint32LE (slice data 16 20)
        uslot := (uint32LE (slice data 20 24)).toInt32 }

def decodeWmsgPayload (data : Bytes) : Option Bytes :=
  if data.length < 176 then none else some (cstrToString (slice data 16 32))

def decodeTalkPayload (data : Bytes) : Option Bytes :=
  if data.length < 72 then none else some (cstrToString (slice data 0 16))

/-- Only its length is checked; the text goes to the log. -/
def validChatPayload (data : Bytes) : Bool := 196 ≤ data.length

structure TopicKey where
  bid : UInt32
  aid : UInt64
deriving DecidableEq

namespace TopicKey

def toLexPair (key : TopicKey) : UInt32 ×ₗ UInt64 := toLex (key.bid, key.aid)

theorem toLexPair_injective : Function.Injective toLexPair := by
  rintro ⟨bid, aid⟩ ⟨otherBid, otherAid⟩ same
  obtain ⟨bids, aids⟩ := Prod.mk.inj (toLex_inj.mp same)
  exact (TopicKey.mk.injEq _ _ _ _).mpr ⟨bids, aids⟩

instance : LinearOrder TopicKey := LinearOrder.lift' toLexPair toLexPair_injective

end TopicKey

/-- Without the index hint in its upper bits. -/
def aiduRawMask : UInt64 := 0x00001FFFFFFFFFFF

structure PubSubPayload where
  bid : UInt32
  timestamp : UInt32
  aid : UInt64
  text : Bytes
  fsize : UInt64
deriving DecidableEq

/-- The size of the article is missing in packets of older clients. -/
def decodePubSubPayload (data : Bytes) : Option PubSubPayload :=
  if data.length < 144 then none
  else
    some
      { bid := uint32LE (slice data 0 4)
        timestamp := uint32LE (slice data 4 8)
        aid := uint64LE (slice data 8 16) &&& aiduRawMask
        text := slice data 16 144
        fsize := if 152 ≤ data.length then uint64LE (slice data 144 152) else 0 }

namespace PubSubPayload

def encode (payload : PubSubPayload) : Bytes :=
  putUint32LE payload.bid ++ putUint32LE payload.timestamp ++
    putUint64LE (payload.aid &&& aiduRawMask) ++ payload.text ++ putUint64LE payload.fsize

def key (payload : PubSubPayload) : TopicKey :=
  { bid := payload.bid, aid := payload.aid &&& aiduRawMask }

end PubSubPayload

structure StatsPayload where
  activeClients : UInt32
  registeredUsers : UInt32
  activeSessions : UInt32
  activeTopics : UInt32
  activeChess : UInt32
  activeXChat : UInt32
  totalWmsg : UInt64
  totalTalk : UInt64
  totalLive : UInt64
  uptimeSec : UInt32
deriving DecidableEq

def StatsPayload.encode (stats : StatsPayload) : Bytes :=
  putUint32LE stats.activeClients ++ putUint32LE stats.registeredUsers ++
    putUint32LE stats.activeSessions ++ putUint32LE stats.activeTopics ++
    putUint32LE stats.activeChess ++ putUint32LE stats.activeXChat ++
    putUint64LE stats.totalWmsg ++ putUint64LE stats.totalTalk ++ putUint64LE stats.totalLive ++
    putUint32LE stats.uptimeSec ++ List.replicate 24 0

end Pttbbs.IpcSvc
