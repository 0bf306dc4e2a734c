/-
Queues and writers of ipc.svc.

A handler reads a packet, looks up the targets, and queues for one of them after
the other; it looks whether a connection is closed before it queues.  The writer
of a connection takes packets off the queue in batches.  A write that fails may
have written a part of its batch, and always closes the connection.
-/

import Mathlib.Data.List.Sublists
import Pttbbs.IpcSvc.Registry

namespace Pttbbs.IpcSvc

open Pttbbs.Lib

/-! ### The steps -/

def clientSendQueueSize : Nat := 256

def clientWriteBatch : Nat := 64

inductive Writer where
  | waiting
  | batching (batch : List Bytes)
  | stopped
deriving DecidableEq

structure Line where
  sendCh : List Bytes := []
  done : Bool := false
  writer : Writer := .waiting
  written : Bytes := []
  /-- All packets `Enqueue` has taken, in order. -/
  accepted : List Bytes := []
deriving DecidableEq

structure Handler where
  sends : List Send := []
  checked : Bool := false
deriving DecidableEq

structure World where
  daemon : Daemon := {}
  lines : ClientID → Line := fun _ => {}
  handlers : ClientID → Handler := fun _ => {}

inductive Action where
  | accept
  | read (around : Surroundings) (id : ClientID) (packet : Packet)
  | check (id : ClientID)
  | push (id : ClientID)
  | close (id : ClientID)
  | remove (id : ClientID)
  | take (id : ClientID)
  | drain (id : ClientID)
  | write (id : ClientID)
  | fail (id : ClientID) (count : Nat)
  | quit (id : ClientID)

namespace Line

def enqueue (line : Line) (bytes : Bytes) : Line :=
  if line.sendCh.length < clientSendQueueSize then
    { line with sendCh := line.sendCh ++ [bytes], accepted := line.accepted ++ [bytes] }
  else line

def close (line : Line) : Line := { line with done := true }

def take (line : Line) : Line :=
  match line.writer, line.sendCh with
  | .waiting, packet :: rest => { line with writer := .batching [packet], sendCh := rest }
  | _, _ => line

def drain (line : Line) : Line :=
  match line.writer, line.sendCh with
  | .batching batch, packet :: rest =>
      if batch.length < clientWriteBatch then
        { line with writer := .batching (batch ++ [packet]), sendCh := rest }
      else line
  | _, _ => line

def write (line : Line) : Line :=
  match line.writer with
  | .batching batch =>
      { line with writer := .waiting, written := line.written ++ batch.flatten }
  | _ => line

def fail (line : Line) (count : Nat) : Line :=
  match line.writer with
  | .batching batch =>
      { line with
        writer := .stopped
        done := true
        written := line.written ++ batch.flatten.take count }
  | _ => line

def quit (line : Line) : Line :=
  match line.writer with
  | .waiting => if line.done then { line with writer := .stopped } else line
  | _ => line

end Line

namespace World

def setLine (world : World) (id : ClientID) (change : Line → Line) : World :=
  { world with lines := Function.update world.lines id (change (world.lines id)) }

def setHandler (world : World) (id : ClientID) (handler : Handler) : World :=
  { world with handlers := Function.update world.handlers id handler }

def read (world : World) (around : Surroundings) (id : ClientID) (packet : Packet) : World :=
  if id ∈ world.daemon.connected ∧ (world.handlers id).sends = [] then
    { world with daemon := world.daemon.step (.packet around id packet) }.setHandler id
      { sends := (world.daemon.service.dispatch around id packet).2 }
  else world

def check (world : World) (id : ClientID) : World :=
  match (world.handlers id).sends with
  | [] => world
  | (target, bytes) :: rest =>
      if (world.handlers id).checked then world
      else if (world.lines target).done then world.setHandler id { sends := rest }
      else world.setHandler id { sends := (target, bytes) :: rest, checked := true }

def push (world : World) (id : ClientID) : World :=
  match (world.handlers id).sends with
  | [] => world
  | (target, bytes) :: rest =>
      if (world.handlers id).checked then
        (world.setLine target (fun line => line.enqueue bytes)).setHandler id { sends := rest }
      else world

def remove (world : World) (id : ClientID) : World :=
  if (world.lines id).done ∧ (world.handlers id).sends = [] then
    { world with daemon := world.daemon.step (.disconnect id) }
  else world

def step (world : World) : Action → World
  | .accept => { world with daemon := world.daemon.step .accept }
  | .read around id packet => world.read around id packet
  | .check id => world.check id
  | .push id => world.push id
  | .close id => world.setLine id Line.close
  | .remove id => world.remove id
  | .take id => world.setLine id Line.take
  | .drain id => world.setLine id Line.drain
  | .write id => world.setLine id Line.write
  | .fail id count => world.setLine id (fun line => line.fail count)
  | .quit id => world.setLine id Line.quit

end World

/-! ### One connection -/

def IsPacket (bytes : Bytes) : Prop := ∃ packet, bytes = encodePacket packet

def Writer.batch : Writer → List Bytes
  | .batching batch => batch
  | _ => []

/-- The packets taken are those written, those in the batch and those in the
queue; after a failed write a part of the batch is written too. -/
structure Line.Whole (line : Line) : Prop where
  packets : ∀ bytes ∈ line.accepted, IsPacket bytes
  order : ∃ whole lost part, line.accepted = whole ++ lost ++ line.writer.batch ++ line.sendCh ∧
    line.written = whole.flatten ++ part ∧ part <+: lost.flatten ∧
    (lost ≠ [] → line.writer = .stopped)
  closed : line.writer = .stopped → line.done = true

namespace Line

variable {line : Line}

theorem whole_start : Whole {} where
  packets := fun _ member => nomatch member
  order := ⟨[], [], [], rfl, rfl, List.prefix_refl _, fun some => absurd rfl some⟩
  closed := nofun

theorem Whole.enqueue (kept : line.Whole) {bytes : Bytes} (isPacket : IsPacket bytes) :
    (line.enqueue bytes).Whole := by
  unfold Line.enqueue
  split
  · obtain ⟨whole, lost, part, accepted, written, partly, stopped⟩ := kept.order
    refine ⟨?_, ⟨whole, lost, part, ?_, written, partly, stopped⟩, kept.closed⟩
    · intro other member
      rcases List.mem_append.mp member with old | new
      · exact kept.packets other old
      · rw [List.mem_singleton.mp new]
        exact isPacket
    · dsimp only
      rw [accepted, List.append_assoc]
  · exact kept

theorem Whole.close (kept : line.Whole) : line.close.Whole := by
  exact ⟨kept.packets, kept.order, fun _stopped => rfl⟩

theorem Whole.take (kept : line.Whole) : line.take.Whole := by
  unfold Line.take
  split
  · rename_i packet rest waiting queued
    obtain ⟨whole, lost, part, accepted, written, partly, stopped⟩ := kept.order
    rw [waiting] at accepted stopped
    refine ⟨kept.packets, ⟨whole, lost, part, ?_, written, partly, ?_⟩, nofun⟩
    · dsimp only [Writer.batch] at accepted ⊢
      rw [accepted, queued]
      simp
    · intro some
      exact absurd (stopped some) nofun
  · exact kept

theorem Whole.drain (kept : line.Whole) : line.drain.Whole := by
  unfold Line.drain
  split
  · rename_i batch packet rest batching queued
    split
    · obtain ⟨whole, lost, part, accepted, written, partly, stopped⟩ := kept.order
      rw [batching] at accepted stopped
      refine ⟨kept.packets, ⟨whole, lost, part, ?_, written, partly, ?_⟩, nofun⟩
      · dsimp only [Writer.batch] at accepted ⊢
        rw [accepted, queued]
        simp
      · intro some
        exact absurd (stopped some) nofun
    · exact kept
  · exact kept

theorem Whole.batching (kept : line.Whole) {batch : List Bytes}
    (batching : line.writer = .batching batch) :
    ∃ whole, line.accepted = whole ++ batch ++ line.sendCh ∧ line.written = whole.flatten := by
  obtain ⟨whole, lost, part, accepted, written, partly, stopped⟩ := kept.order
  rw [batching] at accepted stopped
  obtain rfl : lost = [] := by
    by_contra some
    exact absurd (stopped some) nofun
  obtain rfl : part = [] := List.prefix_nil.mp partly
  exact ⟨whole, by simpa [Writer.batch] using accepted, by simpa using written⟩

theorem Whole.write (kept : line.Whole) : line.write.Whole := by
  unfold Line.write
  split
  · rename_i batch batching
    obtain ⟨whole, accepted, written⟩ := kept.batching batching
    exact ⟨kept.packets, ⟨whole ++ batch, [], [], by simp [accepted, Writer.batch],
      by simp [written], List.prefix_refl _, fun some => absurd rfl some⟩, nofun⟩
  · exact kept

theorem Whole.fail (kept : line.Whole) (count : Nat) : (line.fail count).Whole := by
  unfold Line.fail
  split
  · rename_i batch batching
    obtain ⟨whole, accepted, written⟩ := kept.batching batching
    exact ⟨kept.packets, ⟨whole, batch, batch.flatten.take count, by simp [accepted, Writer.batch],
      by simp [written], List.take_prefix _ _, fun _some => rfl⟩, fun _stopped => rfl⟩
  · exact kept

theorem Whole.quit (kept : line.Whole) : line.quit.Whole := by
  unfold Line.quit
  split
  · rename_i waiting
    split
    · rename_i done
      obtain ⟨whole, lost, part, accepted, written, partly, stopped⟩ := kept.order
      rw [waiting] at accepted
      exact ⟨kept.packets, ⟨whole, lost, part, accepted, written, partly, fun _some => rfl⟩,
        fun _stopped => done⟩
    · exact kept
  · exact kept

end Line

/-! ### What a packet makes the handler queue -/

namespace Service

variable {service : Service}

theorem isPacket_ack (id : ClientID) (seq : UInt32) (code : Int32) (msg : String) :
    IsPacket (ack id seq code msg).2 :=
  ⟨_, rfl⟩

theorem isPacket_single {send : Send} (isPacket : IsPacket send.2) :
    ∀ other ∈ [send], IsPacket other.2 := by
  intro other member
  rw [List.mem_singleton.mp member]
  exact isPacket

theorem isPacket_targets {targets : List ClientID} {packet : Packet} {last : List Send}
    (final : ∀ send ∈ last, IsPacket send.2) :
    ∀ send ∈ targets.map (fun target => (target, encodePacket packet)) ++ last,
      IsPacket send.2 := by
  intro send member
  rcases List.mem_append.mp member with fanned | rest
  · obtain ⟨target, _listed, rfl⟩ := List.mem_map.mp fanned
    exact ⟨packet, rfl⟩
  · exact final send rest

/-- The sessions of the user get the packet and the sender an acknowledgement,
which is positive only if there is a session. -/
theorem deliver_sends (around : Surroundings) (id : ClientID) (user : Bytes) (seq : UInt32)
    (packet : Packet) (stats : Stats) :
    ∃ targets code msg,
      (service.deliver around id user seq packet stats).2 =
        targets.map (fun target => (target, encodePacket packet)) ++ [ack id seq code msg] ∧
      (code = 0 → targets ≠ [] ∧ targets = service.sessions (around.toLower user)) := by
  unfold deliver
  split
  · exact ⟨[], -1, _, rfl, fun zero => absurd zero (by decide)⟩
  · rename_i targets some
    exact ⟨_, 0, _, rfl, fun _zero => ⟨some, rfl⟩⟩

theorem dispatch_delivers (around : Surroundings) (id : ClientID) (packet : Packet)
    (command : packet.command = .wmsgSend ∨ packet.command = .talkReq) :
    ∃ targets delivery code msg,
      (service.dispatch around id packet).2 =
        targets.map (fun target => (target, encodePacket delivery)) ++
          [ack id packet.seq code msg] ∧
      delivery.payload = packet.payload ∧
      (code = 0 → targets ≠ [] ∧ ∃ user, targets = service.sessions user) := by
  have refused : ∀ msg, ∃ targets delivery code text,
      [ack id packet.seq (-1) msg] = targets.map (fun target => (target, encodePacket delivery)) ++
        [ack id packet.seq code text] ∧
      delivery.payload = packet.payload ∧
      (code = 0 → targets ≠ [] ∧ ∃ user, targets = service.sessions user) :=
    fun msg => ⟨[], packet, -1, msg, rfl, rfl, fun zero => absurd zero (by decide)⟩
  unfold dispatch
  rcases command with command | command
  · rw [command]
    dsimp only
    cases decodeWmsgPayload packet.payload with
    | none => exact refused _
    | some user =>
        obtain ⟨targets, code, msg, sends, honest⟩ := @deliver_sends service around id user
          packet.seq { packet with type := typeWmsgDeliver }
          { service.stats with totalWmsgSent := service.stats.totalWmsgSent + 1 }
        exact ⟨targets, _, code, msg, sends, rfl, fun zero => ⟨(honest zero).1, _, (honest zero).2⟩⟩
  · rw [command]
    dsimp only
    cases decodeTalkPayload packet.payload with
    | none => exact refused _
    | some user =>
        obtain ⟨targets, code, msg, sends, honest⟩ := @deliver_sends service around id user
          packet.seq { packet with type := typeTalkReq }
          { service.stats with totalTalkReqs := service.stats.totalTalkReqs + 1 }
        exact ⟨targets, _, code, msg, sends, rfl, fun zero => ⟨(honest zero).1, _, (honest zero).2⟩⟩

theorem isPacket_deliver (around : Surroundings) (id : ClientID) (user : Bytes) (seq : UInt32)
    (packet : Packet) (stats : Stats) :
    ∀ send ∈ (service.deliver around id user seq packet stats).2, IsPacket send.2 := by
  obtain ⟨targets, code, msg, sends, _honest⟩ :=
    @deliver_sends service around id user seq packet stats
  rw [sends]
  exact isPacket_targets (isPacket_single (isPacket_ack _ _ _ _))

theorem isPacket_dispatch (around : Surroundings) (id : ClientID) (packet : Packet) :
    ∀ send ∈ (service.dispatch around id packet).2, IsPacket send.2 := by
  have acked : ∀ seq code msg, ∀ send ∈ [ack id seq code msg], IsPacket send.2 :=
    fun seq code msg => isPacket_single (isPacket_ack id seq code msg)
  have stats : ∀ type seq, ∀ send ∈ [service.statsAnswer around id type seq], IsPacket send.2 :=
    fun type seq => isPacket_single ⟨_, rfl⟩
  have optional : ∀ (quiet : Prop) [Decidable quiet] seq code msg,
      ∀ send ∈ (if quiet then [] else [ack id seq code msg]), IsPacket send.2 := by
    intro quiet _decidable seq code msg
    split
    · intro send member
      cases member
    · exact acked seq code msg
  unfold dispatch
  cases packet.command with
  | register =>
      dsimp only
      cases decodeRegisterPayload packet.payload with
      | none => exact acked _ _ _
      | some payload => exact acked _ _ _
  | unregister => exact acked _ _ _
  | ping => exact stats _ _
  | statsReq => exact stats _ _
  | wmsgSend =>
      dsimp only
      cases decodeWmsgPayload packet.payload with
      | none => exact acked _ _ _
      | some user => exact isPacket_deliver _ _ _ _ _ _
  | talkReq =>
      dsimp only
      cases decodeTalkPayload packet.payload with
      | none => exact acked _ _ _
      | some user => exact isPacket_deliver _ _ _ _ _ _
  | chatMsg =>
      dsimp only
      cases validChatPayload packet.payload with
      | false => exact acked _ _ _
      | true => exact acked _ _ _
  | sub =>
      dsimp only
      cases decodePubSubPayload packet.payload with
      | none => exact acked _ _ _
      | some payload =>
          dsimp only
          cases payload.key.bid = 0 || payload.key.aid = 0 with
          | false => exact acked _ _ _
          | true => exact acked _ _ _
  | unsub =>
      dsimp only
      cases decodePubSubPayload packet.payload with
      | none => exact acked _ _ _
      | some payload => exact optional _ _ _ _
  | pub =>
      dsimp only
      cases decodePubSubPayload packet.payload with
      | none => exact optional _ _ _ _
      | some payload => exact isPacket_targets (optional _ _ _ _)
  | sysBroadcast => exact isPacket_targets (acked _ _ _)
  | unknown => exact acked _ _ _

end Service

/-! ### All connections -/

namespace World

structure Kept (world : World) : Prop where
  lines : ∀ id, (world.lines id).Whole
  sends : ∀ id, ∀ send ∈ (world.handlers id).sends, IsPacket send.2

variable {world : World}

theorem Kept.setLine (kept : world.Kept) (id : ClientID) (change : Line → Line)
    (whole : (change (world.lines id)).Whole) : (world.setLine id change).Kept where
  lines := by
    intro other
    unfold World.setLine
    dsimp only
    by_cases same : other = id
    · rw [same, Function.update_self]
      exact whole
    · rw [Function.update_of_ne same]
      exact kept.lines other
  sends := kept.sends

theorem Kept.setHandler (kept : world.Kept) (id : ClientID) (handler : Handler)
    (packets : ∀ send ∈ handler.sends, IsPacket send.2) :
    (world.setHandler id handler).Kept where
  lines := kept.lines
  sends := by
    intro other
    unfold World.setHandler
    dsimp only
    by_cases same : other = id
    · rw [same, Function.update_self]
      exact packets
    · rw [Function.update_of_ne same]
      exact kept.sends other

theorem kept_step (kept : world.Kept) (action : Action) : (world.step action).Kept := by
  cases action with
  | accept => exact ⟨kept.lines, kept.sends⟩
  | read around id packet =>
      change (world.read around id packet).Kept
      unfold read
      split
      · have read : ({ world with daemon := world.daemon.step (.packet around id packet) } :
            World).Kept := ⟨kept.lines, kept.sends⟩
        exact read.setHandler id _ (Service.isPacket_dispatch around id packet)
      · exact kept
  | check id =>
      change (world.check id).Kept
      unfold check
      split
      · exact kept
      · rename_i target bytes rest sends
        have packets := kept.sends id
        rw [sends] at packets
        split
        · exact kept
        · split
          · exact kept.setHandler id _
              (fun send member => packets send (List.mem_cons_of_mem _ member))
          · exact kept.setHandler id _ packets
  | push id =>
      change (world.push id).Kept
      unfold push
      split
      · exact kept
      · rename_i target bytes rest sends
        have packets := kept.sends id
        rw [sends] at packets
        split
        · have queued := kept.setLine target _
            ((kept.lines target).enqueue (packets (target, bytes) List.mem_cons_self))
          exact queued.setHandler id _
            (fun send member => packets send (List.mem_cons_of_mem _ member))
        · exact kept
  | close id => exact kept.setLine id _ (kept.lines id).close
  | remove id =>
      change (world.remove id).Kept
      unfold remove
      split
      · exact ⟨kept.lines, kept.sends⟩
      · exact kept
  | take id => exact kept.setLine id _ (kept.lines id).take
  | drain id => exact kept.setLine id _ (kept.lines id).drain
  | write id => exact kept.setLine id _ (kept.lines id).write
  | fail id count => exact kept.setLine id (fun line => line.fail count) ((kept.lines id).fail count)
  | quit id => exact kept.setLine id _ (kept.lines id).quit

theorem kept_run (actions : List Action) : (run step {} actions).Kept := by
  refine invariant_run_of_step ?_ ?_ actions
  · intro world action kept
    exact kept_step kept action
  · exact ⟨fun _ => Line.whole_start, fun _ _ member => nomatch member⟩

/-! ### Nothing is held back -/

def WriterStep (id : ClientID) (action : Action) : Prop :=
  action = .take id ∨ action = .write id

theorem setLine_lines (id : ClientID) (change : Line → Line) :
    (world.setLine id change).lines id = change (world.lines id) :=
  Function.update_self _ _ _

theorem exists_flush_waiting (id : ClientID) (queue : List Bytes) :
    ∀ world : World, (world.lines id).writer = .waiting → (world.lines id).sendCh = queue →
      ∃ more, (∀ action ∈ more, WriterStep id action) ∧
        ((run step world more).lines id).written =
          (world.lines id).written ++ queue.flatten ∧
        ((run step world more).lines id).accepted = (world.lines id).accepted := by
  induction queue with
  | nil =>
      intro world _waiting _empty
      exact ⟨[], by simp, by simp, rfl⟩
  | cons packet rest ih =>
      intro world waiting queued
      have taken : ((world.step (.take id)).lines id) =
          { world.lines id with writer := .batching [packet], sendCh := rest } := by
        refine (setLine_lines id _).trans ?_
        simp only [Line.take, waiting, queued]
      have wrote : (((world.step (.take id)).step (.write id)).lines id) =
          { world.lines id with
            writer := .waiting
            sendCh := rest
            written := (world.lines id).written ++ packet } := by
        refine (setLine_lines id _).trans ?_
        rw [taken]
        simp [Line.write]
      obtain ⟨more, steps, written, accepted⟩ :=
        ih ((world.step (.take id)).step (.write id)) (by rw [wrote]) (by rw [wrote])
      refine ⟨.take id :: .write id :: more, ?_, ?_, ?_⟩
      · intro action member
        rcases List.mem_cons.mp member with rfl | member
        · exact .inl rfl
        rcases List.mem_cons.mp member with rfl | member
        · exact .inr rfl
        · exact steps action member
      · rw [run_cons, run_cons, written, wrote]
        simp
      · rw [run_cons, run_cons, accepted, wrote]

theorem exists_flush (world : World) (id : ClientID) (going : (world.lines id).writer ≠ .stopped) :
    ∃ more, (∀ action ∈ more, WriterStep id action) ∧
      ((run step world more).lines id).written =
        (world.lines id).written ++ (world.lines id).writer.batch.flatten ++
          (world.lines id).sendCh.flatten ∧
      ((run step world more).lines id).accepted = (world.lines id).accepted := by
  cases writer : (world.lines id).writer with
  | stopped => exact absurd writer going
  | waiting =>
      obtain ⟨more, steps, written, accepted⟩ := exists_flush_waiting id _ world writer rfl
      refine ⟨more, steps, ?_, accepted⟩
      rw [written]
      simp [Writer.batch]
  | batching batch =>
      have wrote : ((world.step (.write id)).lines id) =
          { world.lines id with
            writer := .waiting
            written := (world.lines id).written ++ batch.flatten } := by
        refine (setLine_lines id _).trans ?_
        simp only [Line.write, writer]
      obtain ⟨more, steps, written, accepted⟩ :=
        exists_flush_waiting id (world.lines id).sendCh (world.step (.write id))
          (by rw [wrote]) (by rw [wrote])
      refine ⟨.write id :: more, ?_, ?_, ?_⟩
      · intro action member
        rcases List.mem_cons.mp member with rfl | member
        · exact .inr rfl
        · exact steps action member
      · rw [run_cons, written, wrote]
        rfl
      · rw [run_cons, accepted, wrote]

/-- The packets `Enqueue` took for an open connection are written, in the batch
of the writer or in the queue, and the writer can write all of them. -/
theorem Kept.open_line (kept : world.Kept) (id : ClientID)
    (opened : (world.lines id).done = false) :
    (∃ whole, (world.lines id).accepted =
        whole ++ (world.lines id).writer.batch ++ (world.lines id).sendCh ∧
      (world.lines id).written = whole.flatten) ∧
    ∃ more, (∀ action ∈ more, WriterStep id action) ∧
      ((run step world more).lines id).accepted = (world.lines id).accepted ∧
      ((run step world more).lines id).written = (world.lines id).accepted.flatten := by
  have going : (world.lines id).writer ≠ .stopped := by
    intro stopped
    exact absurd ((kept.lines id).closed stopped) (by rw [opened]; decide)
  obtain ⟨whole, lost, part, accepted, written, partly, stopped⟩ := (kept.lines id).order
  have none : lost = [] := by
    by_contra some
    exact going (stopped some)
  subst none
  have empty : part = [] := List.prefix_nil.mp partly
  subst empty
  rw [List.append_nil] at accepted written
  refine ⟨⟨whole, accepted, written⟩, ?_⟩
  obtain ⟨more, steps, flushed, same⟩ := exists_flush world id going
  refine ⟨more, steps, same, ?_⟩
  rw [flushed, written, accepted]
  simp

def pingThenStall : List Action :=
  [.accept, .read {} 0 { type := typePing }, .check 0, .push 0, .take 0, .fail 0 3]

def messageThenLeave : List Action :=
  [.accept, .accept, .read {} 1 (Daemon.registerPacket (utf8 "bob") 7), .check 1, .push 1,
    .read {} 0
      { type := typeWmsgSend
        seq := 5
        payload := stringToCstr (utf8 "amy") 16 ++ stringToCstr (utf8 "bob") 16 ++
          List.replicate 144 0 },
    .close 1, .check 0, .check 0, .push 0]

end World

end Pttbbs.IpcSvc
