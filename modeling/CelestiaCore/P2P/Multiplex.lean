import CelestiaCore.P2P.MConnection

/-!
# Messages on a multiplex connection

What was accepted on a channel is what was delivered, what is under way, the message in parts and
the queue. Each event moves one piece from one place to the next. -/
namespace CelestiaCore.P2P
open Wire List Function ChannelDescriptor
open BitVec (ofNat ofNat_add toInt_eq_toNat_of_lt toNat_ofNat)

/-! ## Putting packets together -/

/-- The messages that packets of one channel complete, and what is left over. -/
def assemble (recving : Bytes) : List PacketMsg → List Bytes × Bytes
  | [] => ([], recving)
  | packet :: packets =>
    if packet.eof then
      ((recving ++ packet.data) :: (assemble [] packets).1, (assemble [] packets).2)
    else assemble (recving ++ packet.data) packets

theorem assemble_concat (packet : PacketMsg) (packets : List PacketMsg) (recving : Bytes) :
    assemble recving (packets ++ [packet]) =
      if packet.eof then
        ((assemble recving packets).1 ++ [(assemble recving packets).2 ++ packet.data], [])
      else ((assemble recving packets).1, (assemble recving packets).2 ++ packet.data) := by
  induction packets generalizing recving with
  | nil =>
    rw [nil_append, assemble, assemble, assemble, assemble]
    split_ifs <;> rfl
  | cons p packets ih =>
    rw [cons_append, assemble, assemble, ih, ih]
    split_ifs <;> rfl

/-- What has been received of a message is the start of what the packets complete first, or of what
is left over if they complete none. -/
theorem isPrefix_assemble (recving : Bytes) (packets : List PacketMsg) :
    (∃ msg ∈ (assemble recving packets).1, recving <+: msg) ∨
      recving <+: (assemble recving packets).2 := by
  induction packets generalizing recving with
  | nil => exact .inr (prefix_refl _)
  | cons p packets ih =>
    rw [assemble]
    split_ifs
    · exact .inl ⟨_, mem_cons_self .., prefix_append _ _⟩
    · have hstart := prefix_append recving p.data
      obtain ⟨msg, hmsg, hlong⟩ | hrest := ih (recving ++ p.data)
      · exact .inl ⟨msg, hmsg, hstart.trans hlong⟩
      · exact .inr (hstart.trans hrest)

/-- The message in parts, of which `left` has been written. -/
def inProgress (sending left : Bytes) : List Bytes := if sending = [] then [] else [left ++ sending]

theorem inProgress_of_ne {sending : Bytes} (h : sending ≠ []) (left : Bytes) :
    inProgress sending left = [left ++ sending] :=
  if_neg h

/-! ## One channel -/

theorem Channel.isSendPending_cases (ch : Channel) :
    (ch.sending = [] ∧ ch.sendQueue = [] ∧ ch.isSendPending = (false, ch)) ∨
    (∃ bytes queue, ch.sending = [] ∧ ch.sendQueue = bytes :: queue ∧
      ch.isSendPending = (true, { ch with sending := bytes, sendQueue := queue })) ∨
    ch.sending ≠ [] ∧ ch.isSendPending = (true, ch) := by
  rw [isSendPending]
  by_cases hempty : ch.sending.length = 0
  · have hsending : ch.sending = [] := eq_nil_of_length_eq_zero hempty
    rw [if_pos hempty]
    cases hqueue : ch.sendQueue with
    | nil => exact .inl ⟨hsending, rfl, rfl⟩
    | cons bytes queue => exact .inr (.inl ⟨bytes, queue, hsending, rfl, rfl⟩)
  · rw [if_neg hempty]
    exact .inr (.inr ⟨fun hnil => hempty (congrArg length hnil), rfl⟩)

/-- The channel of the sender accounts for the messages it accepted, where `under` is what the
packets under way complete and leave over, and `uncounted` messages are queued. -/
structure Carries (ch : Channel) (under : List Bytes × Bytes) (accepted delivered : List Bytes)
    (uncounted : ℕ) : Prop where
  intact : accepted = delivered ++ (under.1 ++ (inProgress ch.sending under.2 ++ ch.sendQueue))
  whole : ch.sending = [] → under.2 = []
  counted : ch.sendQueueSize + ofNat 32 uncounted =
    ofNat 32 (ch.sendQueue.length + (inProgress ch.sending []).length)

namespace Carries
variable {ch : Channel} {under : List Bytes × Bytes} {accepted delivered : List Bytes}
  {uncounted : ℕ}

theorem counted_succ {size : BitVec 32} {m n : ℕ} : size + ofNat 32 (m + 1) = ofNat 32 (n + 1) ↔
      size + ofNat 32 m = ofNat 32 n := by
  rw [ofNat_add m, ofNat_add n, ← add_assoc]
  exact add_left_inj _

theorem enqueue (h : Carries ch under accepted delivered uncounted) (bytes : Bytes) :
    Carries { ch with sendQueue := ch.sendQueue ++ [bytes] } under (accepted ++ [bytes]) delivered
      (uncounted + 1) := by
  refine ⟨?_, h.whole, ?_⟩
  · rw [h.intact]
    simp only [append_assoc]
  · dsimp only
    rw [length_append, length_singleton, Nat.add_right_comm]
    exact counted_succ.2 h.counted

theorem count (h : Carries ch under accepted delivered (uncounted + 1)) :
    Carries ch.count under accepted delivered uncounted := by
  refine ⟨h.intact, h.whole, ?_⟩
  have hcounted := h.counted
  rw [ofNat_add, add_comm (ofNat 32 uncounted), ← add_assoc] at hcounted
  exact hcounted

theorem load (h : Carries ch under accepted delivered uncounted) (hsending : ch.sending = [])
    {bytes : Bytes} {queue : List Bytes} (hqueue : ch.sendQueue = bytes :: queue)
    (hbytes : bytes ≠ []) :
    Carries { ch with sending := bytes, sendQueue := queue } under accepted delivered
      uncounted := by
  obtain ⟨hintact, hwhole, hcounted⟩ := h
  rw [inProgress, if_pos hsending, hqueue] at hintact hcounted
  refine ⟨?_, fun hnil => absurd hnil hbytes, ?_⟩
  · dsimp only
    rw [inProgress_of_ne hbytes, hwhole hsending]
    exact hintact
  · dsimp only
    rw [inProgress_of_ne hbytes]
    exact hcounted

theorem packet (h : Carries ch under accepted delivered uncounted) (hsending : ch.sending ≠ []) :
    Carries ch.nextPacketMsg.2
      (if ch.nextPacketMsg.1.eof then (under.1 ++ [under.2 ++ ch.nextPacketMsg.1.data], [])
        else (under.1, under.2 ++ ch.nextPacketMsg.1.data)) accepted delivered uncounted := by
  obtain ⟨hintact, hwhole, hcounted⟩ := h
  rw [inProgress_of_ne hsending] at hintact hcounted
  rw [Channel.nextPacketMsg]
  by_cases hlast : ch.sending.length ≤ ch.maxPacketMsgPayloadSize
  · rw [if_pos hlast]
    refine ⟨?_, fun _ => rfl, ?_⟩
    · simpa only [if_true, inProgress, append_assoc, nil_append] using hintact
    · dsimp only
      apply counted_succ.1
      rw [ofNat_add, ← add_assoc, add_right_comm]
      exact (congrArg (· + ofNat 32 uncounted) (sub_add_cancel _ _)).trans hcounted
  · rw [if_neg hlast]
    have hrest : ch.sending.drop ch.maxPacketMsgPayloadSize ≠ [] := fun hnil =>
      hlast (drop_eq_nil_iff.1 hnil)
    refine ⟨?_, fun hnil => absurd hnil hrest, ?_⟩
    · dsimp only
      rw [inProgress_of_ne hrest]
      simpa only [Bool.false_eq_true, if_false, append_assoc, take_append_drop]
        using hintact
    · dsimp only
      rw [inProgress_of_ne hrest]
      exact hcounted

theorem deliver {msg : Bytes} {msgs : List Bytes} {left : Bytes}
    (h : Carries ch (msg :: msgs, left) accepted delivered uncounted) :
    Carries ch (msgs, left) accepted (delivered ++ [msg]) uncounted := by
  refine ⟨?_, h.whole, h.counted⟩
  rw [h.intact]
  simp only [append_assoc, cons_append, nil_append]

theorem left_le (h : Carries ch under accepted delivered uncounted) {capacity : Int}
    (hfits : ∀ msg ∈ accepted, (msg.length : Int) ≤ capacity) (hleft : under.2 ≠ []) :
    (under.2.length : Int) ≤ capacity := by
  have hsending : ch.sending ≠ [] := fun hnil => hleft (h.whole hnil)
  have hmem : under.2 ++ ch.sending ∈ accepted := by
    rw [h.intact, inProgress_of_ne hsending]
    simp
  refine le_trans ?_ (hfits _ hmem)
  rw [length_append]
  exact_mod_cast Nat.le_add_right _ _

end Carries

/-! ## The link -/

namespace Link
variable {l l' : Link} {id id' : UInt8}

/-- What the packets under way on a channel complete and leave over. -/
def underway (l : Link) (id : UInt8) : List Bytes × Bytes :=
  assemble (l.receiver.channel id).recving (l.wire.filter fun p => p.channelID = id.toNat)

structure Flow (l : Link) (id : UInt8) : Prop where
  named : (l.sender.channel id).desc.id = id
  payload : 0 < (l.sender.channel id).maxPacketMsgPayloadSize
  carries : Carries (l.sender.channel id) (l.underway id) (l.accepted id) (l.delivered id)
    (l.uncounted id)
  ready : id ∈ l.pending → (l.sender.channel id).sending ≠ []

structure Sound (l : Link) : Prop where
  running : l.failed = none
  known : ∀ id ∈ l.sender.ids, id ∈ l.receiver.ids
  ours : ∀ p ∈ l.wire, ∃ id ∈ l.sender.ids, p.channelID = id.toNat
  cut : ∀ p ∈ l.wire, p.eof = false → p.data ≠ []
  polled : ∀ id ∈ l.pending, id ∈ l.sender.ids
  flow : ∀ id ∈ l.sender.ids, l.Flow id

/-- The messages accepted on a channel are not empty and fit the channel of the receiver. -/
def Fits (l : Link) (id : UInt8) : Prop :=
  ∀ msg ∈ l.accepted id, msg ≠ [] ∧
    (msg.length : Int) ≤ (l.receiver.channel id).desc.recvMessageCapacity

instance (l : Link) (id : UInt8) : Decidable (l.Fits id) :=
  inferInstanceAs (Decidable (∀ msg ∈ l.accepted id, _))

theorem toNat_ne (h : id ≠ id') : (id.toNat : Int) ≠ id'.toNat := fun heq =>
  h (UInt8.toNat.inj (Int.ofNat.inj heq))

theorem channel_setChannel (c : MConnection) (id : UInt8) (ch : Channel) :
    (c.setChannel id ch).channel id = ch :=
  update_self ..

theorem channel_setChannel_of_ne (c : MConnection) (ch : Channel) (h : id' ≠ id) :
    (c.setChannel id ch).channel id' = c.channel id' :=
  update_of_ne h ..

theorem Flow.congr (h : l.Flow id) (hsender : l'.sender.channel id = l.sender.channel id)
    (hunder : l'.underway id = l.underway id) (hdelivered : l'.delivered id = l.delivered id)
    (haccepted : l'.accepted id = l.accepted id) (huncounted : l'.uncounted id = l.uncounted id)
    (hpending : id ∈ l'.pending → id ∈ l.pending) : l'.Flow id := by
  obtain ⟨hnamed, hpayload, hcarries, hready⟩ := h
  rw [← hsender] at hnamed hpayload hcarries hready
  rw [← hunder, ← hdelivered, ← haccepted, ← huncounted] at hcarries
  exact ⟨hnamed, hpayload, hcarries, fun hid => hready (hpending hid)⟩

theorem Sound.send (h : l.Sound) (id : UInt8) (msgBytes : Bytes) : (l.send id msgBytes).Sound := by
  rw [Link.send]
  split_ifs with hid
  swap
  · exact h
  rw [Channel.enqueue]
  split_ifs
  swap
  · exact h
  refine ⟨h.running, h.known, h.ours, h.cut, h.polled, fun id' hid' => ?_⟩
  by_cases heq : id' = id
  · subst heq
    obtain ⟨hnamed, hpayload, hcarries, hready⟩ := h.flow id' hid
    refine ⟨?_, ?_, ?_, ?_⟩ <;> dsimp only <;> rw [channel_setChannel]
    · exact hnamed
    · exact hpayload
    · rw [update_self, update_self]
      exact hcarries.enqueue msgBytes
    · exact hready
  · refine (h.flow id' hid').congr (channel_setChannel_of_ne _ _ heq) rfl rfl ?_ ?_ fun hp => hp
    · exact update_of_ne heq ..
    · exact update_of_ne heq ..

theorem Sound.count (h : l.Sound) (id : UInt8) : (l.count id).Sound := by
  rw [Link.count]
  split_ifs with hpos
  swap
  · exact h
  refine ⟨h.running, h.known, h.ours, h.cut, h.polled, fun id' hid' => ?_⟩
  by_cases heq : id' = id
  · subst heq
    obtain ⟨hnamed, hpayload, hcarries, hready⟩ := h.flow id' hid'
    obtain ⟨n, hn⟩ := Nat.exists_eq_succ_of_ne_zero hpos.ne'
    refine ⟨?_, ?_, ?_, ?_⟩ <;> dsimp only <;> rw [channel_setChannel]
    · exact hnamed
    · exact hpayload
    · rw [hn] at hcarries
      rw [update_self, hn]
      exact hcarries.count
    · exact hready
  · refine (h.flow id' hid').congr (channel_setChannel_of_ne _ _ heq) rfl rfl rfl ?_ fun hp => hp
    exact update_of_ne heq ..

theorem Flow.poll (h : l.Flow id) (hfits : l.Fits id) {pending : List UInt8}
    (hpending : (l.sender.channel id).isSendPending.1 = false → id ∈ pending → id ∈ l.pending) :
    Flow { l with
      sender := l.sender.setChannel id (l.sender.channel id).isSendPending.2
      pending := pending } id := by
  obtain ⟨hnamed, hpayload, hcarries, hready⟩ := h
  obtain ⟨hsending, hqueue, hpoll⟩ | ⟨bytes, queue, hsending, hqueue, hpoll⟩ | ⟨hsending, hpoll⟩ :=
    (l.sender.channel id).isSendPending_cases
  all_goals
    rw [hpoll] at hpending ⊢
    refine ⟨?_, ?_, ?_, ?_⟩ <;> dsimp only <;> rw [channel_setChannel]
  · exact hnamed
  · exact hpayload
  · exact hcarries
  · exact fun hid => hready (hpending rfl hid)
  · exact hnamed
  · exact hpayload
  · refine hcarries.load hsending hqueue (hfits bytes ?_).1
    rw [hcarries.intact, hqueue]
    simp
  · refine fun _ => (hfits bytes ?_).1
    rw [hcarries.intact, hqueue]
    simp
  · exact hnamed
  · exact hpayload
  · exact hcarries
  · exact fun _ => hsending

theorem Sound.poll (h : l.Sound) (hfits : ∀ id ∈ l.sender.ids, l.Fits id) (id : UInt8) :
    (l.poll id).Sound := by
  rw [Link.poll]
  split_ifs with hid
  swap
  · exact h
  refine ⟨h.running, h.known, h.ours, h.cut, fun id' hid' => ?_, fun id' hid' => ?_⟩
  · dsimp only at hid'
    split_ifs at hid'
    · rcases mem_cons.1 hid' with rfl | hid'
      · exact hid
      · exact h.polled id' hid'
    · exact h.polled id' hid'
  by_cases heq : id' = id
  · subst heq
    refine (h.flow id' hid).poll (hfits id' hid) fun hnone hid'' => ?_
    rwa [hnone, if_neg Bool.false_ne_true] at hid''
  · refine (h.flow id' hid').congr (channel_setChannel_of_ne _ _ heq) rfl rfl rfl rfl fun hp => ?_
    dsimp only at hp
    split_ifs at hp
    · exact (mem_cons.1 hp).resolve_left heq
    · exact hp

theorem nextPacketMsg_cut (ch : Channel) (hpayload : 0 < ch.maxPacketMsgPayloadSize)
    (heof : ch.nextPacketMsg.1.eof = false) : ch.nextPacketMsg.1.data ≠ [] := by
  rw [Channel.nextPacketMsg] at heof ⊢
  split_ifs at heof ⊢ with hlast
  intro hnil
  have hlength := congrArg length hnil
  rw [length_take, length_nil] at hlength
  omega

theorem nextPacketMsg_channel (ch : Channel) :
    ch.nextPacketMsg.1.channelID = ch.desc.id.toNat ∧ ch.nextPacketMsg.2.desc = ch.desc ∧
      ch.nextPacketMsg.2.maxPacketMsgPayloadSize = ch.maxPacketMsgPayloadSize := by
  rw [Channel.nextPacketMsg]
  split_ifs <;> exact ⟨rfl, rfl, rfl⟩

theorem Sound.write (h : l.Sound) (id : UInt8) : (l.write id).Sound := by
  rw [Link.write]
  split_ifs with hpending
  swap
  · exact h
  have hid := h.polled id hpending
  obtain ⟨hnamed, hpayload, hcarries, hready⟩ := h.flow id hid
  obtain ⟨hchannel, hdesc, hmax⟩ := nextPacketMsg_channel (l.sender.channel id)
  rw [hnamed] at hchannel
  refine ⟨h.running, h.known, fun p hp => ?_, fun p hp => ?_, fun _ hmem =>
    absurd hmem not_mem_nil, fun id' hid' => ?_⟩
  · rcases mem_append.1 hp with hp | hp
    · exact h.ours p hp
    · exact ⟨id, hid, mem_singleton.1 hp ▸ hchannel⟩
  · rcases mem_append.1 hp with hp | hp
    · exact h.cut p hp
    · exact mem_singleton.1 hp ▸ nextPacketMsg_cut _ hpayload
  by_cases heq : id' = id
  · subst heq
    refine ⟨?_, ?_, ?_, nofun⟩ <;> dsimp only <;>
      rw [channel_setChannel]
    · rw [hdesc, hnamed]
    · rw [hmax]
      exact hpayload
    · rw [underway]
      dsimp only
      rw [filter_append, filter_singleton, hchannel, decide_eq_true rfl]
      exact (assemble_concat _ _ _) ▸ hcarries.packet (hready hpending)
  · refine (h.flow id' hid').congr (channel_setChannel_of_ne _ _ heq) ?_ rfl rfl rfl fun hmem =>
      absurd hmem not_mem_nil
    rw [underway, underway]
    dsimp only
    rw [filter_append, filter_singleton, hchannel, decide_eq_false (toNat_ne (Ne.symm heq))]
    rw [cond_false, append_nil]

theorem ofInt_toNat (id : UInt8) : UInt8.ofInt (id.toNat : Int) = id := by
  have hlt := id.toNat_lt
  apply UInt8.toNat.inj
  rw [UInt8.ofInt, UInt8.toNat_ofNat']
  omega

variable {packet : PacketMsg}

theorem receive_known {c : MConnection} (hid : id ∈ c.ids) (hchannel : packet.channelID = id.toNat)
    (hfits : ((c.channel id).recving.length + packet.data.length : Int) ≤
      (c.channel id).desc.recvMessageCapacity) :
    c.receive packet = .ok (id, if packet.eof then
        (some ((c.channel id).recving ++ packet.data),
          c.setChannel id { c.channel id with recving := [] })
      else (none,
        c.setChannel id { c.channel id with recving := (c.channel id).recving ++ packet.data })) :=
          by
  have hlt := id.toNat_lt
  have hrange : ¬(packet.channelID < 0 ∨ 255 < packet.channelID ∨
      UInt8.ofInt packet.channelID ∉ c.ids) := by
    rw [hchannel, ofInt_toNat]
    simp only [hid, not_true_eq_false, or_false]
    omega
  dsimp only [MConnection.receive]
  rw [if_neg hrange, hchannel, ofInt_toNat]
  dsimp only [Channel.recvPacketMsg]
  rw [if_neg (not_lt.2 hfits)]
  split_ifs <;> rfl

variable {wire : List PacketMsg}

theorem underway_cons (hwire : l.wire = packet :: wire) (hchannel : packet.channelID = id.toNat) :
    l.underway id = if packet.eof then
        (((l.receiver.channel id).recving ++ packet.data) ::
          (assemble [] (wire.filter fun p => p.channelID = id.toNat)).1,
          (assemble [] (wire.filter fun p => p.channelID = id.toNat)).2)
      else assemble ((l.receiver.channel id).recving ++ packet.data)
        (wire.filter fun p => p.channelID = id.toNat) := by
  rw [underway, hwire, filter_cons, if_pos (decide_eq_true hchannel), assemble]

theorem underway_cons_of_ne
    (hwire : l.wire = packet :: wire) (hchannel : packet.channelID = id.toNat) (hne : id' ≠ id) :
    l.underway id' = assemble (l.receiver.channel id').recving
      (wire.filter fun p => p.channelID = id'.toNat) := by
  have hnot : ¬decide (packet.channelID = id'.toNat) = true := by
    rw [hchannel, decide_eq_true_iff]
    exact toNat_ne (Ne.symm hne)
  rw [underway, hwire, filter_cons, if_neg hnot]

/-- What a packet adds to what was received is still the start of an accepted message. -/
theorem Flow.fits_receive (h : l.Flow id) (hfits : l.Fits id) (hwire : l.wire = packet :: wire)
    (hchannel : packet.channelID = id.toNat) (hcut : packet.eof = false → packet.data ≠ []) :
    ((l.receiver.channel id).recving.length + packet.data.length : Int) ≤
      (l.receiver.channel id).desc.recvMessageCapacity := by
  have hunder := underway_cons hwire hchannel
  have hcarries := h.carries
  have hmem {msg : Bytes} (hmsg : msg ∈ (l.underway id).1) : msg ∈ l.accepted id := by
    rw [hcarries.intact]
    exact mem_append_right _ (mem_append_left _ hmsg)
  have hle : (((l.receiver.channel id).recving ++ packet.data).length : Int) ≤
      (l.receiver.channel id).desc.recvMessageCapacity := by
    split_ifs at hunder with heof
    · exact (hfits _ (hmem (hunder ▸ mem_cons_self ..))).2
    have hdata : packet.data ≠ [] := hcut (Bool.eq_false_iff.2 heof)
    obtain ⟨msg, hmsg, hstart⟩ | hstart :=
      isPrefix_assemble ((l.receiver.channel id).recving ++ packet.data)
        (wire.filter fun p => p.channelID = id.toNat)
    · refine le_trans ?_ (hfits msg (hmem (hunder ▸ hmsg))).2
      exact_mod_cast hstart.length_le
    rw [← hunder] at hstart
    refine le_trans ?_ (hcarries.left_le (fun msg hmsg => (hfits msg hmsg).2) fun hnil => ?_)
    · exact_mod_cast hstart.length_le
    · rw [hnil, prefix_nil] at hstart
      exact hdata (append_eq_nil_iff.1 hstart).2
  rw [length_append, Nat.cast_add] at hle
  exact hle

theorem Sound.receive (h : l.Sound) (hfits : ∀ id ∈ l.sender.ids, l.Fits id) : l.receive.Sound := by
  rw [Link.receive, h.running]
  cases hwire : l.wire with
  | nil => exact h
  | cons packet wire =>
    have hpacket : packet ∈ l.wire := hwire ▸ mem_cons_self ..
    have hrest {p : PacketMsg} (hp : p ∈ wire) : p ∈ l.wire := hwire ▸ mem_cons_of_mem _ hp
    obtain ⟨id, hid, hchannel⟩ := h.ours packet hpacket
    have hflow := h.flow id hid
    have hroom := hflow.fits_receive (hfits id hid) hwire hchannel (h.cut packet hpacket)
    have hsame := underway_cons hwire hchannel
    dsimp only
    rw [receive_known (h.known id hid) hchannel hroom]
    obtain ⟨hnamed, hpayload, hcarries, hready⟩ := hflow
    cases heof : packet.eof with
    | true =>
      rw [heof, if_pos rfl] at hsame
      rw [hsame] at hcarries
      rw [if_pos rfl]
      dsimp only
      refine ⟨rfl, h.known, fun p hp => h.ours p (hrest hp), fun p hp => h.cut p (hrest hp),
        h.polled, fun id' hid' => ?_⟩
      by_cases heq : id' = id
      · subst heq
        refine ⟨hnamed, hpayload, ?_, hready⟩
        dsimp only [underway]
        rw [channel_setChannel, update_self]
        exact hcarries.deliver
      · refine (h.flow id' hid').congr rfl ?_ (update_of_ne heq ..) rfl rfl fun hp => hp
        rw [underway_cons_of_ne hwire hchannel heq]
        dsimp only [underway]
        rw [channel_setChannel_of_ne _ _ heq]
    | false =>
      rw [heof, if_neg Bool.false_ne_true] at hsame
      rw [hsame] at hcarries
      rw [if_neg Bool.false_ne_true]
      dsimp only
      refine ⟨rfl, h.known, fun p hp => h.ours p (hrest hp), fun p hp => h.cut p (hrest hp),
        h.polled, fun id' hid' => ?_⟩
      by_cases heq : id' = id
      · subst heq
        refine ⟨hnamed, hpayload, ?_, hready⟩
        dsimp only [underway]
        rw [channel_setChannel]
        exact hcarries
      · refine (h.flow id' hid').congr rfl ?_ rfl rfl rfl fun hp => hp
        rw [underway_cons_of_ne hwire hchannel heq]
        dsimp only [underway]
        rw [channel_setChannel_of_ne _ _ heq]

/-! ## Whole runs -/

/-- What an event leaves: the channels and their capacities, and what was accepted. -/
structure Extends (l l' : Link) : Prop where
  ids : l'.sender.ids = l.sender.ids
  capacity : ∀ id, (l'.receiver.channel id).desc = (l.receiver.channel id).desc
  accepted : ∀ id, l.accepted id <+: l'.accepted id

theorem receive_desc {c c' : MConnection} {msgBytes : Option Bytes}
    (h : c.receive packet = .ok (id, msgBytes, c')) (id' : UInt8) :
    (c'.channel id').desc = (c.channel id').desc := by
  dsimp only [MConnection.receive, Channel.recvPacketMsg] at h
  split_ifs at h
  · cases h
    by_cases heq : id' = UInt8.ofInt packet.channelID
    · rw [heq, channel_setChannel]
    · rw [channel_setChannel_of_ne _ _ heq]
  · cases h
    by_cases heq : id' = UInt8.ofInt packet.channelID
    · rw [heq, channel_setChannel]
    · rw [channel_setChannel_of_ne _ _ heq]

theorem extends_step (l : Link) (event : LinkEvent) : l.Extends (l.step event) := by
  have hrefl : l.Extends l := ⟨rfl, fun _ => rfl, fun _ => prefix_refl _⟩
  cases event with
  | send id msgBytes =>
    rw [step, Link.send]
    split_ifs
    · cases (l.sender.channel id).enqueue msgBytes with
      | none => exact hrefl
      | some ch =>
        refine ⟨rfl, fun _ => rfl, fun id' => ?_⟩
        dsimp only
        rw [update_apply]
        split_ifs with heq
        · rw [heq]
          exact prefix_append _ _
        · exact prefix_refl _
    · exact hrefl
  | count =>
    rw [step, Link.count]
    split_ifs
    · exact ⟨rfl, fun _ => rfl, fun _ => prefix_refl _⟩
    · exact hrefl
  | poll =>
    rw [step, Link.poll]
    split_ifs
    · exact ⟨rfl, fun _ => rfl, fun _ => prefix_refl _⟩
    · exact hrefl
  | write =>
    rw [step, Link.write]
    split_ifs
    · exact ⟨rfl, fun _ => rfl, fun _ => prefix_refl _⟩
    · exact hrefl
  | receive =>
    rw [step, Link.receive]
    cases l.failed with
    | some e => exact hrefl
    | none =>
      cases l.wire with
      | nil => exact hrefl
      | cons packet wire =>
        dsimp only
        cases hreceive : l.receiver.receive packet with
        | error e => exact ⟨rfl, fun _ => rfl, fun _ => prefix_refl _⟩
        | ok r =>
          obtain ⟨id, msgBytes, c⟩ := r
          cases msgBytes with
          | none => exact ⟨rfl, receive_desc hreceive, fun _ => prefix_refl _⟩
          | some msg => exact ⟨rfl, receive_desc hreceive, fun _ => prefix_refl _⟩

theorem after_append (l : Link) (events events' : List LinkEvent) :
    l.after (events ++ events') = (l.after events).after events' :=
  foldl_append ..

theorem extends_after (events : List LinkEvent) (l : Link) : l.Extends (l.after events) := by
  induction events generalizing l with
  | nil => exact ⟨rfl, fun _ => rfl, fun _ => prefix_refl _⟩
  | cons event events ih =>
    have hstep := l.extends_step event
    have hrest := ih (l.step event)
    exact ⟨hrest.ids.trans hstep.ids, fun id => (hrest.capacity id).trans (hstep.capacity id),
      fun id => (hstep.accepted id).trans (hrest.accepted id)⟩

theorem Extends.fits (h : l.Extends l') (hfits : l'.Fits id) : l.Fits id := fun msg hmsg => by
  rw [← h.capacity id]
  exact hfits msg ((h.accepted id).subset hmsg)

theorem Sound.step (h : l.Sound) (hfits : ∀ id ∈ l.sender.ids, l.Fits id) (event : LinkEvent) :
    (l.step event).Sound := by
  cases event with
  | send id msgBytes => exact h.send id msgBytes
  | count id => exact h.count id
  | poll id => exact h.poll hfits id
  | write id => exact h.write id
  | receive => exact h.receive hfits

theorem Sound.after (h : l.Sound) (events : List LinkEvent)
    (hfits : ∀ id ∈ l.sender.ids, (l.after events).Fits id) : (l.after events).Sound := by
  induction events generalizing l with
  | nil => exact h
  | cons event events ih =>
    have hnow := l.extends_after (event :: events)
    refine ih (h.step (fun id hid => hnow.fits (hfits id hid)) event) fun id hid => ?_
    rw [(l.extends_step event).ids] at hid
    exact hfits id hid

/-- The messages of a channel that are in progress, with the part already received, or queued. -/
def unsent (l : Link) (id : UInt8) : List Bytes :=
  inProgress (l.sender.channel id).sending (l.receiver.channel id).recving ++
    (l.sender.channel id).sendQueue

/-- The messages of a channel arrive intact, in order and once. -/
structure Arrives (l : Link) (id : UInt8) : Prop where
  inOrder : l.delivered id <+: l.accepted id
  /-- When the packets written have been read, all but the unsent messages have arrived. -/
  complete : (∀ p ∈ l.wire, p.channelID ≠ id.toNat) → l.accepted id = l.delivered id ++ l.unsent id
  /-- The size of the queue is the number of unsent messages, up to the calls that have not counted
  theirs yet. -/
  size : (l.sender.channel id).sendQueueSize + ofNat 32 (l.uncounted id) =
    ofNat 32 (l.unsent id).length
  sizeInt : l.uncounted id = 0 → (l.unsent id).length < 2 ^ 31 →
    (l.sender.channel id).sendQueueSize.toInt = (l.unsent id).length

theorem length_inProgress (sending left left' : Bytes) :
    (inProgress sending left).length = (inProgress sending left').length := by
  rw [inProgress, inProgress]
  split_ifs <;> rfl

theorem Flow.arrives (h : l.Flow id) : l.Arrives id := by
  have hsize : (l.sender.channel id).sendQueueSize + ofNat 32 (l.uncounted id) =
      ofNat 32 (l.unsent id).length := by
    rw [unsent, length_append, add_comm (length _), length_inProgress _ _ []]
    exact h.carries.counted
  refine ⟨⟨_, h.carries.intact.symm⟩, fun hwire => ?_, hsize, fun hcounted hlt => ?_⟩
  · have hunder : l.underway id = ([], (l.receiver.channel id).recving) := by
      rw [underway, filter_eq_nil_iff.2 fun p hp => by simpa using hwire p hp, assemble]
    have hintact := h.carries.intact
    rw [hunder] at hintact
    exact hintact
  · rw [hcounted] at hsize
    have hsize' : (l.sender.channel id).sendQueueSize = ofNat 32 (l.unsent id).length :=
      (add_zero _).symm.trans hsize
    have hnat : (ofNat 32 (l.unsent id).length).toNat = (l.unsent id).length := by
      rw [toNat_ofNat]
      exact Nat.mod_eq_of_lt (hlt.trans (by norm_num))
    rw [hsize', toInt_eq_toNat_of_lt (by rw [hnat]; omega), hnat]

theorem initial_sound {sender receiver : MConnection}
    (hknown : ∀ id ∈ sender.ids, id ∈ receiver.ids)
    (hsender : ∀ id ∈ sender.ids, (sender.channel id).desc.id = id ∧
      0 < (sender.channel id).maxPacketMsgPayloadSize ∧ (sender.channel id).sending = [] ∧
      (sender.channel id).sendQueue = [] ∧ (sender.channel id).sendQueueSize = 0)
    (hreceiver : ∀ id ∈ sender.ids, (receiver.channel id).recving = []) :
    (initial sender receiver).Sound := by
  refine ⟨rfl, hknown, nofun, nofun,
    nofun, fun id hid => ?_⟩
  obtain ⟨hnamed, hpayload, hsending, hqueue, hsize⟩ := hsender id hid
  refine ⟨hnamed, hpayload, ⟨?_, fun _ => hreceiver id hid, ?_⟩, nofun⟩
  · dsimp only [initial, underway]
    rw [hsending, hqueue]
    rfl
  · dsimp only [initial]
    rw [hsending, hqueue, hsize]
    rfl

/-! ## The send routine -/

theorem polls_eq (ratio : UInt8 → WithTop ℕ) (ids : List UInt8) (l : Link)
    (hids : ∀ id ∈ ids, id ∈ l.sender.ids) (least : Option UInt8) (bound : WithTop ℕ) :
    ∃ sender pending bound',
      l.after (ids.map .poll) = { l with sender := sender, pending := pending } ∧
      l.pending ⊆ pending ∧
      ∃ least', ids.foldl (fun (least : Option UInt8 × WithTop ℕ × MConnection) id =>
          let r := (least.2.2.channel id).isSendPending
          let c := least.2.2.setChannel id r.2
          if r.1 ∧ ratio id < least.2.1 then (some id, ratio id, c) else (least.1, least.2.1, c))
          (least, bound, l.sender) = (least', bound', sender) ∧
        (least' = least ∨ ∃ id ∈ least', id ∈ pending) := by
  induction ids generalizing l least bound with
  | nil => exact ⟨_, _, _, rfl, List.Subset.refl _, _, rfl, .inl rfl⟩
  | cons id ids ih =>
    rw [map_cons, foldl_cons]
    dsimp only
    set r := (l.sender.channel id).isSendPending
    set c := l.sender.setChannel id r.2
    have hpoll : l.poll id =
        { l with sender := c, pending := if r.1 then id :: l.pending else l.pending } :=
      if_pos (hids id (mem_cons_self ..))
    -- The choice is kept, or it is this channel, which is then pending.
    obtain ⟨least₁, bound₁, hstep, hcase⟩ : ∃ least₁ bound₁,
        (if r.1 ∧ ratio id < bound then (some id, ratio id, c) else (least, bound, c)) =
          (least₁, bound₁, c) ∧ (least₁ = least ∨ least₁ = some id ∧ r.1) := by
      split_ifs with hleast
      · exact ⟨_, _, rfl, .inr ⟨rfl, hleast.1⟩⟩
      · exact ⟨_, _, rfl, .inl rfl⟩
    obtain ⟨sender, pending, bound', hafter, hmem, least', hfold, hchosen⟩ :=
      ih (l.poll id) (fun id' hid' => by rw [hpoll]; exact hids id' (mem_cons_of_mem _ hid'))
        least₁ bound₁
    rw [hpoll] at hafter hmem hfold
    refine ⟨sender, pending, bound', (by rw [← hafter, ← hpoll]; rfl), fun i hi => hmem ?_, least',
      hstep ▸ hfold, ?_⟩
    · dsimp only
      split_ifs
      · exact mem_cons_of_mem _ hi
      · exact hi
    obtain rfl | hchosen := hchosen
    · obtain rfl | ⟨rfl, hr⟩ := hcase
      · exact .inl rfl
      · exact .inr ⟨id, rfl, hmem (by simp [hr])⟩
    · exact .inr hchosen

theorem sendBatchPacketMsgs_run (ratios : List (UInt8 → WithTop ℕ)) (l : Link) :
    ∃ events pending, l.after events = { l with
      sender := (l.sender.sendBatchPacketMsgs ratios).2
      wire := l.wire ++ (l.sender.sendBatchPacketMsgs ratios).1
      pending := pending } := by
  induction ratios generalizing l with
  | nil => exact ⟨[], l.pending, by rw [MConnection.sendBatchPacketMsgs, append_nil]; rfl⟩
  | cons ratio ratios ih =>
    obtain ⟨sender, pending, bound', hafter, -, least', hfold, hchosen⟩ :=
      polls_eq ratio l.sender.ids l (fun _ hid => hid) none ⊤
    have hselect : l.sender.selectChannelToGossipOn ratio = (least', sender) := by
      rw [MConnection.selectChannelToGossipOn, hfold]
    rw [MConnection.sendBatchPacketMsgs, hselect]
    cases least' with
    | none => exact ⟨l.sender.ids.map .poll, pending, by rw [hafter, append_nil]⟩
    | some id =>
      have hid : id ∈ pending := by
        obtain ⟨id', hid', hmem⟩ := hchosen.resolve_left (by simp)
        exact Option.some.inj hid' ▸ hmem
      obtain ⟨events, pending', hrest⟩ :=
        ih ({ l with sender := sender, pending := pending }.write id)
      have hwrite : ({ l with sender := sender, pending := pending } : Link).write id = { l with
          sender := sender.setChannel id (sender.channel id).nextPacketMsg.2
          wire := l.wire ++ [(sender.channel id).nextPacketMsg.1]
          pending := [] } := if_pos hid
      refine ⟨l.sender.ids.map .poll ++ .write id :: events, pending', ?_⟩
      rw [after_append, hafter]
      apply hrest.trans
      rw [hwrite]
      dsimp only
      rw [append_assoc, singleton_append]

end Link

section Connections
variable (maxPacketMsgPayloadSize maxPacketMsgPayloadSize' : ℕ)
    (descs descs' : List ChannelDescriptor)
  (hnodup : (descs.map ChannelDescriptor.id).Nodup)
  (hnodup' : (descs'.map ChannelDescriptor.id).Nodup)

def newLink : Link :=
  Link.initial (.newMConnection maxPacketMsgPayloadSize descs hnodup)
    (.newMConnection maxPacketMsgPayloadSize' descs' hnodup')

theorem find?_id {descs : List ChannelDescriptor} {id : UInt8} :
    ((descs.find? fun desc => desc.id = id).getD ⟨id, 0, 0⟩).id = id := by
  cases hfind : descs.find? fun desc => desc.id = id with
  | none => rfl
  | some desc =>
    have hdesc := find?_some hfind
    exact of_decide_eq_true hdesc

theorem newLink_sound (hmax : 0 < maxPacketMsgPayloadSize)
    (hknown : descs.map ChannelDescriptor.id ⊆ descs'.map ChannelDescriptor.id) :
    (newLink maxPacketMsgPayloadSize maxPacketMsgPayloadSize' descs descs' hnodup hnodup').Sound :=
  Link.initial_sound (fun _ hid => hknown hid)
    (fun _ _ => ⟨find?_id, hmax, rfl, rfl, rfl⟩) fun _ _ => rfl

/-- In every run in which the messages accepted are not empty and fit the receiver, the messages of
each channel arrive intact, in order and once. -/
theorem messages_arrive (hmax : 0 < maxPacketMsgPayloadSize)
    (hknown : descs.map ChannelDescriptor.id ⊆ descs'.map ChannelDescriptor.id)
    (events : List LinkEvent)
    (hfits : ∀ id ∈ descs.map ChannelDescriptor.id, ((newLink maxPacketMsgPayloadSize
      maxPacketMsgPayloadSize' descs descs' hnodup hnodup').after events).Fits id) :
    ((newLink maxPacketMsgPayloadSize maxPacketMsgPayloadSize' descs descs' hnodup hnodup').after
      events).failed = none ∧
    ∀ id ∈ descs.map ChannelDescriptor.id, ((newLink maxPacketMsgPayloadSize
      maxPacketMsgPayloadSize' descs descs' hnodup hnodup').after events).Arrives id := by
  have hsound := (newLink_sound maxPacketMsgPayloadSize maxPacketMsgPayloadSize' descs descs' hnodup
    hnodup' hmax hknown).after events hfits
  refine ⟨hsound.running, fun id hid => (hsound.flow id ?_).arrives⟩
  rw [(Link.extends_after events _).ids]
  exact hid

end Connections

/-- A message of three bytes in two packets, with a message of another channel between them. -/
theorem messages_arrive_between :
    ((newLink 2 4 [⟨1, 0, 0⟩, ⟨2, 5, 0⟩] [⟨2, 0, 3⟩, ⟨1, 0, 7⟩] (by decide) (by decide)).after
      [.send 1 [10, 11, 12], .poll 1, .poll 2, .write 1, .send 2 [20], .count 1, .poll 1, .poll 2,
        .write 2, .receive, .count 2, .poll 1, .write 1, .receive, .receive]).Arrives 1 :=
  (messages_arrive 2 4 _ _ _ _ (by decide) (by decide) _ (by decide +kernel)).2 1 (by decide)

end CelestiaCore.P2P
