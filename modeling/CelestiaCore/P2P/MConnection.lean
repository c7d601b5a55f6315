import CelestiaCore.Wire.Field

/-!
# The multiplex connection

The channels of `p2p/conn/connection.go`. Which channel sends next depends on ratios that are given
with each selection. -/
namespace CelestiaCore.P2P
open Wire

def defaultSendQueueCapacity : ℕ := 1

def defaultRecvMessageCapacity : Int := 22020096

structure ChannelDescriptor where
  id : UInt8
  sendQueueCapacity : ℕ
  recvMessageCapacity : Int
  deriving DecidableEq

def ChannelDescriptor.fillDefaults (chDesc : ChannelDescriptor) : ChannelDescriptor :=
  { chDesc with
    sendQueueCapacity :=
      if chDesc.sendQueueCapacity = 0 then defaultSendQueueCapacity else chDesc.sendQueueCapacity
    recvMessageCapacity :=
      if chDesc.recvMessageCapacity = 0 then defaultRecvMessageCapacity
      else chDesc.recvMessageCapacity }

structure PacketMsg where
  channelID : Int
  eof : Bool
  data : Bytes
  deriving DecidableEq

inductive RecvError where
  | unknownChannel (channelID : Int)
  | exceedsCapacity (recvCap recvReceived : Int)
  deriving DecidableEq

structure Channel where
  desc : ChannelDescriptor
  sendQueue : List Bytes
  sendQueueSize : BitVec 32
  recving : Bytes
  sending : Bytes
  maxPacketMsgPayloadSize : ℕ
  deriving DecidableEq

def newChannel (maxPacketMsgPayloadSize : ℕ) (desc : ChannelDescriptor) : Channel :=
  ⟨desc.fillDefaults, [], 0, [], [], maxPacketMsgPayloadSize⟩

namespace Channel

/-- The message enters the queue, which is what makes `sendBytes` and `trySendBytes` succeed. -/
def enqueue (ch : Channel) (bytes : Bytes) : Option Channel :=
  if ch.sendQueue.length < ch.desc.sendQueueCapacity then
    some { ch with sendQueue := ch.sendQueue ++ [bytes] }
  else none

/-- `sendBytes` and `trySendBytes` count the message after they have queued it. -/
def count (ch : Channel) : Channel := { ch with sendQueueSize := ch.sendQueueSize + 1 }

def isSendPending (ch : Channel) : Bool × Channel :=
  if ch.sending.length = 0 then
    match ch.sendQueue with
    | [] => (false, ch)
    | bytes :: queue => (true, { ch with sending := bytes, sendQueue := queue })
  else (true, ch)

def nextPacketMsg (ch : Channel) : PacketMsg × Channel :=
  if ch.sending.length ≤ ch.maxPacketMsgPayloadSize then
    (⟨ch.desc.id.toNat, true, ch.sending⟩,
      { ch with sending := [], sendQueueSize := ch.sendQueueSize - 1 })
  else
    (⟨ch.desc.id.toNat, false, ch.sending.take ch.maxPacketMsgPayloadSize⟩,
      { ch with sending := ch.sending.drop ch.maxPacketMsgPayloadSize })

/-- The message is `none` until its last packet. -/
def recvPacketMsg (ch : Channel) (packet : PacketMsg) : Except RecvError (Option Bytes × Channel) :=
  let recvReceived : Int := ch.recving.length + packet.data.length
  if ch.desc.recvMessageCapacity < recvReceived then
    .error (.exceedsCapacity ch.desc.recvMessageCapacity recvReceived)
  else
    let recving := ch.recving ++ packet.data
    if packet.eof then .ok (some recving, { ch with recving := [] })
    else .ok (none, { ch with recving := recving })

end Channel

/-- The channels of a connection in their order, and what is behind the pointer for each id. -/
structure MConnection where
  ids : List UInt8
  channel : UInt8 → Channel
  nodup : ids.Nodup

namespace MConnection

def newMConnection (maxPacketMsgPayloadSize : ℕ) (descs : List ChannelDescriptor)
    (hnodup : (descs.map ChannelDescriptor.id).Nodup) : MConnection :=
  ⟨descs.map ChannelDescriptor.id, fun id => newChannel maxPacketMsgPayloadSize
    ((descs.find? fun desc => desc.id = id).getD ⟨id, 0, 0⟩), hnodup⟩

def setChannel (c : MConnection) (id : UInt8) (ch : Channel) : MConnection :=
  { c with channel := Function.update c.channel id ch }

/-- The channel with the least ratio among those with something to send. A message that starts to be
sent leaves its queue. -/
def selectChannelToGossipOn (ratio : UInt8 → WithTop ℕ) (c : MConnection) :
    Option UInt8 × MConnection :=
  let r := c.ids.foldl (fun (least : Option UInt8 × WithTop ℕ × MConnection) id =>
    let r := (least.2.2.channel id).isSendPending
    let c := least.2.2.setChannel id r.2
    if r.1 ∧ ratio id < least.2.1 then (some id, ratio id, c) else (least.1, least.2.1, c))
    (none, ⊤, c)
  (r.1, r.2.2)

/-- A batch with one selection for each ratio; the packets are in the order written. -/
def sendBatchPacketMsgs : List (UInt8 → WithTop ℕ) → MConnection → List PacketMsg × MConnection
  | [], c => ([], c)
  | ratio :: ratios, c =>
    match c.selectChannelToGossipOn ratio with
    | (none, c) => ([], c)
    | (some id, c) =>
      let r := (c.channel id).nextPacketMsg
      let rest := sendBatchPacketMsgs ratios (c.setChannel id r.2)
      (r.1 :: rest.1, rest.2)

/-- What `recvRoutine` does with a packet. -/
def receive (c : MConnection) (packet : PacketMsg) :
    Except RecvError (UInt8 × Option Bytes × MConnection) :=
  let channelID := UInt8.ofInt packet.channelID
  if packet.channelID < 0 ∨ 255 < packet.channelID ∨ channelID ∉ c.ids then
    .error (.unknownChannel packet.channelID)
  else
    match (c.channel channelID).recvPacketMsg packet with
    | .error e => .error e
    | .ok (msgBytes, ch) => .ok (channelID, msgBytes, c.setChannel channelID ch)

end MConnection

/-! ## Two connections -/

/-- One direction between two connections: the packets under way, why the receiver has stopped, and
what the callers have seen. -/
structure Link where
  sender : MConnection
  receiver : MConnection
  wire : List PacketMsg
  failed : Option RecvError
  /-- The channels found to have something to send since the last packet. -/
  pending : List UInt8
  /-- Messages queued on a channel and not counted yet. -/
  uncounted : UInt8 → ℕ
  /-- The messages for which `Send` or `TrySend` succeeded. -/
  accepted : UInt8 → List Bytes
  /-- The messages given to `onReceive`. -/
  delivered : UInt8 → List Bytes

/-- What happens on a link: callers queue and count messages, the send routine writes packets and
the receive routine reads them. -/
inductive LinkEvent where
  | send (id : UInt8) (msgBytes : Bytes)
  | count (id : UInt8)
  | poll (id : UInt8)
  | write (id : UInt8)
  | receive
  deriving DecidableEq

namespace Link

def initial (sender receiver : MConnection) : Link :=
  ⟨sender, receiver, [], none, [], fun _ => 0, fun _ => [], fun _ => []⟩

/-- A call that finds no channel, or no room in the queue until it gives up, returns false. -/
def send (l : Link) (id : UInt8) (msgBytes : Bytes) : Link :=
  if id ∈ l.sender.ids then
    match (l.sender.channel id).enqueue msgBytes with
    | none => l
    | some ch =>
      { l with
        sender := l.sender.setChannel id ch
        uncounted := Function.update l.uncounted id (l.uncounted id + 1)
        accepted := Function.update l.accepted id (l.accepted id ++ [msgBytes]) }
  else l

def count (l : Link) (id : UInt8) : Link :=
  if 0 < l.uncounted id then
    { l with
      sender := l.sender.setChannel id (l.sender.channel id).count
      uncounted := Function.update l.uncounted id (l.uncounted id - 1) }
  else l

def poll (l : Link) (id : UInt8) : Link :=
  if id ∈ l.sender.ids then
    let r := (l.sender.channel id).isSendPending
    { l with
      sender := l.sender.setChannel id r.2
      pending := if r.1 then id :: l.pending else l.pending }
  else l

/-- A packet is written for a channel that was found to have something to send. -/
def write (l : Link) (id : UInt8) : Link :=
  if id ∈ l.pending then
    let r := (l.sender.channel id).nextPacketMsg
    { l with sender := l.sender.setChannel id r.2, wire := l.wire ++ [r.1], pending := [] }
  else l

def receive (l : Link) : Link :=
  match l.failed, l.wire with
  | none, packet :: wire =>
    match l.receiver.receive packet with
    | .error e => { l with wire, failed := some e }
    | .ok (_, none, receiver) => { l with wire, receiver }
    | .ok (id, some msgBytes, receiver) =>
      { l with
        wire, receiver
        delivered := Function.update l.delivered id (l.delivered id ++ [msgBytes]) }
  | _, _ => l

def step (l : Link) : LinkEvent → Link
  | .send id msgBytes => l.send id msgBytes
  | .count id => l.count id
  | .poll id => l.poll id
  | .write id => l.write id
  | .receive => l.receive

def after (l : Link) (events : List LinkEvent) : Link := events.foldl step l

end Link
end CelestiaCore.P2P
