import CelestiaCore.P2P.MConnection

/-!
# The size of packets

The limit that `maxPacketMsgSize` of `p2p/conn/connection.go` takes from one packet, and the reader
of `libs/protoio/reader.go` that has this limit. -/
namespace CelestiaCore.P2P
open Wire List

def PacketMsg.marshal (packet : PacketMsg) : Bytes :=
  encodeFields (optVarint 1 (.ofInt packet.channelID) ++ optVarint 2 packet.eof.toUInt64 ++
    optBytes 3 packet.data)

/-- The packet with the message as its sum, marshalled. -/
def mustWrapPacket (packet : PacketMsg) : Bytes := encodeFields [⟨3, .bytes packet.marshal⟩]

def maxPacketMsgSize (maxPacketMsgPayloadSize : ℕ) : ℕ :=
  (mustWrapPacket ⟨1, true, .replicate maxPacketMsgPayloadSize 0⟩).length

inductive ReadMsgError where
  | eof
  | outOfRange (l : ℕ)
  | exceedsMaxSize (length maxSize : ℕ)
  deriving DecidableEq

/-- `ReadMsg` up to the unmarshalling of the bytes; the second component is what follows them. -/
def readMsg (maxSize : ℕ) (bs : Bytes) : Except ReadMsgError (Bytes × Bytes) :=
  match readUvarint bs with
  | none => .error .eof
  | some (l, rest) =>
    if 2 ^ 63 - 1 ≤ l ∨ 2 ^ 63 ≤ bs.length - rest.length + l then .error (.outOfRange l)
    else if maxSize < l then .error (.exceedsMaxSize l maxSize)
    else if rest.length < l then .error .eof
    else .ok (rest.take l, rest.drop l)

theorem length_channelID_le (id : UInt8) :
    (encodeFields (optVarint 1 (.ofInt id.toNat))).length ≤ 2 ↔ id.toNat < 128 := by
  have hall : ∀ i : Fin 256, (encodeFields (optVarint 1 (.ofInt i.val))).length ≤ 2 ↔
    i.val < 128 := by
    decide +kernel
  exact hall ⟨id.toNat, id.toNat_lt⟩

theorem length_marshal (packet : PacketMsg) : packet.marshal.length =
    (encodeFields (optVarint 1 (.ofInt packet.channelID))).length +
      (encodeFields (optVarint 2 packet.eof.toUInt64)).length +
      (encodeFields (optBytes 3 packet.data)).length := by
  simp [PacketMsg.marshal, encodeFields, Nat.add_assoc]

theorem nextPacketMsg_spec (ch : Channel) : ch.nextPacketMsg.1.channelID = ch.desc.id.toNat ∧
    ch.nextPacketMsg.1.data.length ≤ ch.maxPacketMsgPayloadSize := by
  unfold Channel.nextPacketMsg
  split_ifs with h
  · exact ⟨rfl, h⟩
  · exact ⟨rfl, length_take_le ..⟩

theorem readMsg_delimit {maxSize : ℕ} {body : Bytes} (h : body.length ≤ maxSize)
    (rest : Bytes) (l : ℕ) :
    readMsg maxSize (delimit body ++ rest) ≠ .error (.exceedsMaxSize l maxSize) := by
  rw [readMsg, delimit, append_assoc, readUvarint_uvarint]
  dsimp only
  split_ifs
  · simp
  · omega
  · simp
  · simp

/-- The limit is right for the channels whose id takes one byte. -/
theorem packets_fit_iff (id : UInt8) (n : ℕ) :
    (∀ ch : Channel, ch.desc.id = id → ch.maxPacketMsgPayloadSize = n →
      (mustWrapPacket ch.nextPacketMsg.1).length ≤ maxPacketMsgSize n ∧
        ∀ rest l, readMsg (maxPacketMsgSize n)
          (delimit (mustWrapPacket ch.nextPacketMsg.1) ++ rest) ≠
          .error (.exceedsMaxSize l (maxPacketMsgSize n))) ↔ id.toNat < 128 := by
  have hsample : (encodeFields (optVarint 1 (.ofInt 1))).length = 2 := by decide
  have heof : ∀ eof : Bool, (encodeFields (optVarint 2 eof.toUInt64)).length ≤
      (encodeFields (optVarint 2 true.toUInt64)).length := by decide
  rw [← length_channelID_le]
  constructor
  · intro hall
    have hfull := (hall ⟨⟨id, 0, 0⟩, [], 0, [], .replicate n 0, n⟩ rfl rfl).1
    rw [maxPacketMsgSize, mustWrapPacket, mustWrapPacket, length_bytes_le_iff, length_marshal,
      length_marshal, hsample] at hfull
    simpa [Channel.nextPacketMsg, Nat.add_assoc] using hfull
  · rintro hid ch rfl rfl
    have hfits : (mustWrapPacket ch.nextPacketMsg.1).length ≤
        maxPacketMsgSize ch.maxPacketMsgPayloadSize := by
      obtain ⟨hch, hdata⟩ := nextPacketMsg_spec ch
      rw [maxPacketMsgSize, mustWrapPacket, mustWrapPacket, length_bytes_le_iff, length_marshal,
        length_marshal, hch, hsample]
      exact add_le_add (add_le_add hid (heof _)) (length_optBytes_mono (by simpa using hdata))
    exact ⟨hfits, readMsg_delimit hfits⟩

theorem high_channel_too_large : readMsg (maxPacketMsgSize 10) (delimit (mustWrapPacket
    (Channel.nextPacketMsg ⟨⟨128, 1, 100⟩, [], 1, [], .replicate 10 0, 10⟩).1)) =
      .error (.exceedsMaxSize 19 18) := by
  decide +kernel

end CelestiaCore.P2P
