import CelestiaCore.P2P.SecretConnection

/-!
# The stream of a secret connection

What an endpoint opens is the next frame whatever the transport does, so the bytes read are a start
of the bytes written. -/
namespace CelestiaCore.P2P
open Wire Function List Option Session

/-! ## Nonces and frames -/

def nonceOf (n : ℕ) : Bytes := replicate 4 0 ++ leBytes 8 n

theorem drop_nonceOf (n : ℕ) : (nonceOf n).drop 4 = leBytes 8 n := by
  rw [nonceOf, drop_left' length_replicate]

theorem nonceOf_inj {m n : ℕ} (hm : m < 2 ^ 64) (hn : n < 2 ^ 64) (h : nonceOf m = nonceOf n) :
    m = n := by
  have hbytes : leValue ((nonceOf m).drop 4) = leValue ((nonceOf n).drop 4) := by rw [h]
  rwa [drop_nonceOf, drop_nonceOf, leValue_leBytes 8 m (by norm_num; exact hm),
    leValue_leBytes 8 n (by norm_num; exact hn)] at hbytes

theorem incrNonce_nonceOf {n : ℕ} (hn : n < 2 ^ 64) :
    incrNonce (nonceOf n) = if n + 1 = 2 ^ 64 then none else some (nonceOf (n + 1)) := by
  rw [incrNonce, drop_nonceOf, leValue_leBytes 8 n (by norm_num; exact hn)]
  have htake : (nonceOf n).take 4 = replicate 4 0 := by
    rw [nonceOf, take_left' length_replicate]
  rw [htake, nonceOf]
  by_cases hmax : n + 1 = 2 ^ 64
  · rw [if_pos (by omega), if_pos hmax]
  · rw [if_neg (by omega), if_neg hmax]

def chunkOf (e : Sealed) : Bytes :=
  (e.plaintext.drop dataLenSize).take (leValue (e.plaintext.take dataLenSize))

theorem take_fillFrame (frame : Bytes) {chunk : Bytes} (hchunk : chunk.length ≤ dataMaxSize) :
    leValue ((fillFrame frame chunk).take dataLenSize) = chunk.length := by
  rw [fillFrame, take_left' (leBytes_length _ _)]
  exact leValue_leBytes _ _ (lt_of_le_of_lt hchunk (by norm_num [dataMaxSize, dataLenSize]))

theorem drop_fillFrame (frame chunk : Bytes) :
    ((fillFrame frame chunk).drop dataLenSize).take chunk.length = chunk := by
  rw [fillFrame, drop_left' (leBytes_length _ _), take_left' rfl]

theorem length_fillFrame {frame chunk : Bytes} (hframe : frame.length = totalFrameSize)
    (hchunk : chunk.length ≤ dataMaxSize) : (fillFrame frame chunk).length = totalFrameSize := by
  rw [fillFrame, length_append, length_append, leBytes_length, length_drop, hframe]
  simp only [totalFrameSize, dataMaxSize, dataLenSize] at hchunk ⊢
  omega

/-! ## Keys -/

theorem sort32_fst {foo bar : Bytes} (h : foo ≠ bar) :
    (foo = (sort32 foo bar).1) ↔ ¬bar = (sort32 bar foo).1 := by
  rw [sort32, sort32]
  by_cases hlt : foo < bar
  · rw [if_pos hlt, if_neg (List.lt_asymm hlt)]
    exact iff_of_true rfl fun heq => h heq.symm
  · have hgt : bar < foo := not_not.1 fun hgt => h (List.le_antisymm hgt hlt)
    rw [if_neg hlt, if_pos hgt]
    exact iff_of_false h fun hne => hne rfl

variable {suite : Suite}

/-- Endpoints with distinct ephemeral keys send with the key the other receives with, and not with
the same key. -/
theorem makeSecretConnection_keys {a b : Bytes}
    (hne : suite.pubKey a ≠ suite.pubKey b) {left right : SecretConnection}
    (hleft : makeSecretConnection suite a (suite.pubKey b) = some left)
    (hright : makeSecretConnection suite b (suite.pubKey a) = some right) :
    left.sendSecret = right.recvSecret ∧ right.sendSecret = left.recvSecret ∧
      left.sendSecret ≠ right.sendSecret := by
  dsimp only [makeSecretConnection] at hleft hright
  obtain ⟨secret, hsecret, rfl⟩ := map_eq_some_iff.1 hleft
  rw [suite.agree] at hsecret
  rw [hsecret, map_some, some.injEq] at hright
  subst hright
  have hindep := suite.independent secret
  dsimp only [deriveSecrets]
  by_cases hleast : suite.pubKey a = (sort32 (suite.pubKey a) (suite.pubKey b)).1
  · have hother := (sort32_fst hne).1 hleast
    rw [if_pos (decide_eq_true hleast), if_neg (by simpa using hother)]
    exact ⟨rfl, rfl, hindep.symm⟩
  · have hother := not_not.1 (mt (sort32_fst hne).2 hleast)
    rw [if_neg (by simpa using hleast), if_pos (decide_eq_true hother)]
    exact ⟨rfl, rfl, hindep⟩

/-! ## The two ends of a direction -/

structure Outbox where
  secret : Bytes
  nonce : Bytes
  sendFrame : Bytes
  frames : List Sealed
  chunks : List Bytes
  call : Option WriteCall
  returns : List WriteReturn
  broken : Bool
  down : Bool

structure Inbox where
  secret : Bytes
  nonce : Bytes
  buffer : Bytes
  wire : Bytes
  got : Bytes
  opened : ℕ
  readErrors : List ReadError
  down : Bool

def taken : Option WriteCall → Bytes
  | none => []
  | some c => c.data.take c.n

structure Sends (o : Outbox) : Prop where
  numbered : ∀ i e, o.frames[i]? = some e → e.key = o.secret ∧ e.nonce = nonceOf i
  framed : ∀ e ∈ o.frames, e.ciphertext.length = aeadSizeOverhead + totalFrameSize ∧
    leValue (e.plaintext.take dataLenSize) ≤ dataMaxSize
  chunked : o.frames.map chunkOf = o.chunks
  bound : o.frames.length ≤ 2 ^ 64
  next : o.down = false → o.frames.length < 2 ^ 64 ∧ o.nonce = nonceOf o.frames.length
  buffer : o.sendFrame.length = totalFrameSize
  running : ∀ c ∈ o.call, o.down = false ∧ c.n ≤ c.data.length ∧ c.rest = c.data.drop c.n
  returned : ∀ r ∈ o.returns, r.failed = false → r.n = r.data.length
  written : o.broken = false →
    o.chunks.flatten = (o.returns.map WriteReturn.data).flatten ++ taken o.call

structure Receives (o : Outbox) (i : Inbox) : Prop where
  secret : i.secret = o.secret
  next : i.down = false → i.opened < 2 ^ 64 ∧ i.nonce = nonceOf i.opened
  opened : i.opened ≤ o.frames.length
  got : i.got ++ i.buffer = (o.chunks.take i.opened).flatten
  intact : o.broken = false →
    i.wire = ((o.frames.drop i.opened).map Sealed.ciphertext).flatten ∧ i.readErrors = []

variable {o : Outbox} {i : Inbox}

theorem Sends.nonce_lt (h : Sends o) {n : ℕ} {e : Sealed} (he : o.frames[n]? = some e) :
    n < 2 ^ 64 :=
  (List.getElem?_eq_some_iff.1 he).1.trans_le h.bound

theorem Sends.nodup (h : Sends o) : (o.frames.map fun e => (e.key, e.nonce)).Nodup := by
  refine pairwise_iff_getElem.2 fun m n hm hn hlt heq => hlt.ne ?_
  rw [length_map] at hm hn
  rw [getElem_map, getElem_map, Prod.mk.injEq] at heq
  have hm' := getElem?_eq_getElem hm
  have hn' := getElem?_eq_getElem hn
  rw [(h.numbered m _ hm').2, (h.numbered n _ hn').2] at heq
  exact nonceOf_inj (h.nonce_lt hm') (h.nonce_lt hn') heq.2

theorem Sends.length_chunks (h : Sends o) : o.chunks.length = o.frames.length := by
  rw [← h.chunked, length_map]

def sealNext (suite : Suite) (o : Outbox) (chunk : Bytes) : Outbox :=
  { o with
    sendFrame := fillFrame o.sendFrame chunk
    frames := o.frames ++ [⟨o.secret, o.nonce, fillFrame o.sendFrame chunk,
      suite.aeadSeal o.secret o.nonce (fillFrame o.sendFrame chunk)⟩]
    chunks := o.chunks ++ [chunk] }

section
variable {suite : Suite} {chunk nonce : Bytes} {call : Option WriteCall}
  {returns : List WriteReturn} {broken down : Bool}

theorem Sends.sealed (h : Sends o) (hdown : o.down = false) (hchunk : chunk.length ≤ dataMaxSize)
    (hnext : down = false → o.frames.length + 1 < 2 ^ 64 ∧ nonce = nonceOf (o.frames.length + 1))
    (hrunning : ∀ c ∈ call, down = false ∧ c.n ≤ c.data.length ∧ c.rest = c.data.drop c.n)
    (hreturned : ∀ r ∈ returns, r.failed = false → r.n = r.data.length)
    (hwritten : broken = false → (o.chunks ++ [chunk]).flatten =
      (returns.map WriteReturn.data).flatten ++ taken call) :
    Sends { sealNext suite o chunk with
      nonce := nonce, call := call, returns := returns, broken := broken, down := down } := by
  obtain ⟨hlt, hnonce⟩ := h.next hdown
  have hlength : (sealNext suite o chunk).frames.length = o.frames.length + 1 := length_append
  have hframe := length_fillFrame h.buffer hchunk
  refine ⟨fun n e he => ?_, fun e he => ?_, ?_, hlength ▸ hlt, hlength ▸ hnext, hframe, hrunning,
    hreturned, hwritten⟩
  · dsimp only [sealNext] at he
    rw [getElem?_append] at he
    split_ifs at he with hn
    · exact h.numbered n e he
    obtain ⟨hn', he⟩ := List.getElem?_eq_some_iff.1 he
    rw [length_singleton] at hn'
    obtain rfl : n = o.frames.length := by omega
    simp only [Nat.sub_self, getElem_cons_zero] at he
    rw [← he]
    exact ⟨rfl, hnonce⟩
  · rcases mem_append.1 he with he | he
    · exact h.framed e he
    · rw [mem_singleton.1 he]
      dsimp only
      rw [suite.length_aeadSeal, hframe, take_fillFrame _ hchunk, add_comm]
      exact ⟨rfl, hchunk⟩
  · dsimp only [sealNext]
    rw [map_append, h.chunked, map_singleton, chunkOf, take_fillFrame _ hchunk, drop_fillFrame]

theorem Receives.sealed {wire : Bytes} (hsends : Sends o) (h : Receives o i)
    (hwire : broken = false → o.broken = false ∧ wire = i.wire ++
      suite.aeadSeal o.secret o.nonce (fillFrame o.sendFrame chunk)) :
    Receives { sealNext suite o chunk with
      nonce := nonce, call := call, returns := returns, broken := broken, down := down }
      { i with wire := wire } := by
  refine ⟨h.secret, h.next, ?_, ?_, fun hok => ?_⟩
  · dsimp only [sealNext]
    rw [length_append]
    exact h.opened.trans (Nat.le_add_right _ _)
  · dsimp only [sealNext]
    rw [take_append_of_le_length (hsends.length_chunks ▸ h.opened)]
    exact h.got
  · obtain ⟨hbroken, rfl⟩ := hwire hok
    obtain ⟨hintact, herrors⟩ := h.intact hbroken
    refine ⟨?_, herrors⟩
    dsimp only [sealNext]
    rw [hintact, drop_append_of_le_length h.opened, map_append, flatten_append]
    simp

end

theorem Sends.return_ {c : WriteCall} (h : Sends o) (hcall : o.call = some c)
    (hrest : c.rest = []) :
    Sends { o with call := none, returns := o.returns ++ [⟨c.data, c.n, false⟩] } := by
  obtain ⟨-, hle, hdrop⟩ := h.running c hcall
  have hn : c.n = c.data.length :=
    le_antisymm hle (drop_eq_nil_iff.1 (hdrop.symm.trans hrest))
  refine ⟨h.numbered, h.framed, h.chunked, h.bound, h.next, h.buffer,
    nofun, fun r hr hok => ?_, fun hok => ?_⟩
  · rcases mem_append.1 hr with hr' | hr'
    · exact h.returned r hr' hok
    · rw [mem_singleton.1 hr']
      exact hn
  · apply (h.written hok).trans
    rw [hcall, taken, taken, hn, take_length, append_nil, map_append,
      flatten_append, map_singleton, flatten_singleton]

section
variable (suite : Suite) {c : WriteCall}

theorem length_take_le (rest : Bytes) : (rest.take dataMaxSize).length ≤ dataMaxSize := by
  rw [length_take]
  exact min_le_left _ _

theorem Sends.panics (h : Sends o) (hcall : o.call = some c) :
    Sends { sealNext suite o (c.rest.take dataMaxSize) with
      call := none, broken := true, down := true } :=
  h.sealed (h.running c hcall).1 (length_take_le _) nofun nofun h.returned nofun

theorem Sends.fails (h : Sends o) (hcall : o.call = some c) (hlt : o.frames.length + 1 < 2 ^ 64) :
    Sends { sealNext suite o (c.rest.take dataMaxSize) with
      nonce := nonceOf (o.frames.length + 1), call := none
      returns := o.returns ++ [⟨c.data, c.n, true⟩], broken := true } := by
  refine h.sealed (h.running c hcall).1 (length_take_le _) (fun _ => ⟨hlt, rfl⟩) nofun
    (fun r hr hok => ?_) nofun
  rcases mem_append.1 hr with hr' | hr'
  · exact h.returned r hr' hok
  · rw [mem_singleton.1 hr'] at hok
    simp at hok

theorem Sends.goes_on (h : Sends o) (hcall : o.call = some c) (hlt : o.frames.length + 1 < 2 ^ 64) :
    Sends { sealNext suite o (c.rest.take dataMaxSize) with
      nonce := nonceOf (o.frames.length + 1)
      call := some ⟨c.data, c.rest.drop dataMaxSize, c.n + (c.rest.take dataMaxSize).length⟩ } := by
  obtain ⟨hdown, hle, hdrop⟩ := h.running c hcall
  have hlength : (c.rest.take dataMaxSize).length = min dataMaxSize (c.data.length - c.n) := by
    rw [length_take, hdrop, length_drop]
  refine h.sealed hdown (length_take_le _) (fun _ => ⟨hlt, rfl⟩)
    (fun c' hc' => ?_) h.returned fun hok => ?_
  · cases hc'
    refine ⟨hdown, ?_, ?_⟩
    · dsimp only
      omega
    dsimp only
    rw [hlength, hdrop, drop_drop]
    rcases le_total dataMaxSize (c.data.length - c.n) with hlong | hshort
    · rw [min_eq_left hlong]
    · rw [min_eq_right hshort, drop_eq_nil_of_le (by omega), drop_eq_nil_of_le (by omega)]
  · have hwritten := h.written hok
    rw [hcall, taken] at hwritten
    dsimp only [sealNext, taken]
    rw [flatten_append, hwritten, flatten_singleton, append_assoc, take_add,
      ← hdrop, length_take, ← take_eq_take_min]

end

/-! ## Reading -/

theorem Receives.fromBuffer (h : Receives o i) (size : ℕ) :
    Receives o { i with buffer := i.buffer.drop size, got := i.got ++ i.buffer.take size } := by
  refine ⟨h.secret, h.next, h.opened, ?_, h.intact⟩
  dsimp only
  rw [append_assoc, take_append_drop]
  exact h.got

theorem Receives.opens (hsends : Sends o) (h : Receives o i) {e : Sealed}
    (he : o.frames[i.opened]? = some e) (hbuffer : i.buffer = []) {nonce : Bytes} (wire : Bytes)
    (hnonce : i.down = false → i.opened + 1 < 2 ^ 64 ∧ nonce = nonceOf (i.opened + 1))
    (hwire : o.broken = false → i.wire = e.ciphertext ++ wire) (size : ℕ) :
    Receives o { i with
      nonce := nonce, wire := wire, opened := i.opened + 1
      buffer := (chunkOf e).drop size, got := i.got ++ (chunkOf e).take size } := by
  obtain ⟨hlt, he'⟩ := List.getElem?_eq_some_iff.1 he
  refine ⟨h.secret, hnonce, hlt, ?_, fun hok => ⟨?_, (h.intact hok).2⟩⟩
  · have hchunk : o.chunks[i.opened]? = some (chunkOf e) := by
      rw [← hsends.chunked, getElem?_map, he, map_some]
    have hgot := h.got
    rw [hbuffer, append_nil] at hgot
    dsimp only
    rw [append_assoc, take_append_drop, take_add_one, hchunk, hgot,
      flatten_append, toList_some, flatten_singleton]
  · have hintact := (h.intact hok).1
    rw [hwire hok, drop_eq_getElem_cons hlt, he', map_cons, flatten_cons] at hintact
    exact append_cancel_left hintact

theorem Receives.next_frame (hsends : Sends o) (h : Receives o i) (hok : o.broken = false)
    (hlength : ¬i.wire.length < aeadSizeOverhead + totalFrameSize) :
    ∃ e, o.frames[i.opened]? = some e ∧
      i.wire.take (aeadSizeOverhead + totalFrameSize) = e.ciphertext := by
  have hintact := (h.intact hok).1
  cases he : o.frames[i.opened]? with
  | none =>
    rw [drop_eq_nil_of_le (getElem?_eq_none_iff.1 he)] at hintact
    refine absurd ?_ hlength
    rw [hintact]
    simp [aeadSizeOverhead]
  | some e =>
    obtain ⟨hlt, he'⟩ := List.getElem?_eq_some_iff.1 he
    refine ⟨e, rfl, ?_⟩
    rw [hintact, drop_eq_getElem_cons hlt, he', map_cons, flatten_cons,
      take_left' (hsends.framed e (mem_of_getElem? he)).1]

namespace Session

def outbox (s : Session) (side : Side) : Outbox :=
  ⟨(s.conn side).sendSecret, (s.conn side).sendNonce, (s.conn side).sendFrame, s.frames side,
    s.chunks side, s.call side, s.returns side, s.broken side, s.sendDown side⟩

def inbox (s : Session) (side : Side) : Inbox :=
  ⟨(s.conn side).recvSecret, (s.conn side).recvNonce, (s.conn side).recvBuffer, s.wire side.other,
    s.got side, s.opened side, s.readErrors side, s.recvDown side⟩

structure Sound (s : Session) : Prop where
  distinct : (s.conn .left).sendSecret ≠ (s.conn .right).sendSecret
  sends : ∀ side, Sends (s.outbox side)
  receives : ∀ side, Receives (s.outbox side.other) (s.inbox side)

variable {s s' : Session} {side : Side}

theorem other_other (side : Side) : side.other.other = side := by cases side <;> rfl

theorem other_ne (side : Side) : side.other ≠ side := by cases side <;> simp [Side.other]

theorem eq_or_eq_other (side w : Side) : side = w ∨ side = w.other := by
  cases side <;> cases w <;> simp [Side.other]

theorem Sound.ofDirection (h : s.Sound) (w : Side)
    (hsecret : (s'.outbox w).secret = (s.outbox w).secret)
    (hout : s'.outbox w.other = s.outbox w.other) (hin : s'.inbox w = s.inbox w)
    (hsends : Sends (s'.outbox w)) (hreceives : Receives (s'.outbox w) (s'.inbox w.other)) :
    s'.Sound := by
  have hsecrets (side : Side) : (s'.outbox side).secret = (s.outbox side).secret := by
    rcases eq_or_eq_other side w with rfl | rfl
    · exact hsecret
    · rw [hout]
  refine ⟨fun heq => h.distinct ?_, fun side => ?_, fun side => ?_⟩
  · exact (hsecrets .left).symm.trans (heq.trans (hsecrets .right))
  · rcases eq_or_eq_other side w with rfl | rfl
    · exact hsends
    · rw [hout]
      exact h.sends _
  · rcases eq_or_eq_other side w with rfl | rfl
    · rw [hout, hin]
      exact h.receives side
    · rw [other_other]
      exact hreceives

theorem Sound.receives_other (h : s.Sound) (w : Side) :
    Receives (s.outbox w) (s.inbox w.other) := by
  have hreceives := h.receives w.other
  rwa [other_other] at hreceives

def setOutbox (s : Session) (side : Side) (o : Outbox) (wire : Bytes) : Session :=
  { s with
    conn := update s.conn side
      { s.conn side with
        sendSecret := o.secret, sendNonce := o.nonce, sendFrame := o.sendFrame }
    wire := update s.wire side wire
    frames := update s.frames side o.frames
    chunks := update s.chunks side o.chunks
    call := update s.call side o.call
    returns := update s.returns side o.returns
    broken := update s.broken side o.broken
    sendDown := update s.sendDown side o.down }

theorem Sound.setOutbox (h : s.Sound) (side : Side) (o : Outbox) (wire : Bytes)
    (hsecret : o.secret = (s.conn side).sendSecret) (hsends : Sends o)
    (hreceives : Receives o { s.inbox side.other with wire := wire }) :
    (s.setOutbox side o wire).Sound := by
  have hne : side.other ≠ side := other_ne side
  have hout : (s.setOutbox side o wire).outbox side = o := by
    dsimp only [outbox, Session.setOutbox]
    simp only [update_self]
  refine h.ofDirection side ?_ ?_ ?_ ?_ ?_
  · rw [hout]
    exact hsecret
  · dsimp only [outbox, Session.setOutbox]
    simp only [update_of_ne hne]
  · dsimp only [inbox, Session.setOutbox]
    rw [update_self, update_of_ne hne]
  · rw [hout]
    exact hsends
  · rw [hout]
    have hin : (s.setOutbox side o wire).inbox side.other =
        { s.inbox side.other with wire := wire } := by
      dsimp only [inbox, Session.setOutbox]
      rw [update_of_ne hne, other_other, update_self]
    rw [hin]
    exact hreceives

theorem inbox_other (s : Session) (side : Side) :
    { s.inbox side.other with wire := s.wire side } = s.inbox side.other := by
  dsimp only [inbox]
  rw [other_other]

theorem Sound.write (h : s.Sound) (side : Side) (data : Bytes) : (s.write side data).Sound := by
  rw [Session.write]
  split_ifs with hbusy
  · exact h
  rw [not_or, not_not, Bool.not_eq_true] at hbusy
  have hsends := h.sends side
  have hreceives := h.receives_other side
  have hsound := h.setOutbox side { s.outbox side with call := some ⟨data, data, 0⟩ } (s.wire side)
    rfl { hsends with
      running := fun c hc => some.inj hc ▸ ⟨hbusy.1, Nat.zero_le _, rfl⟩
      written := fun hok =>
        (hsends.written hok).trans (by simp only [outbox, hbusy.2, taken]; rfl) }
    (by rw [inbox_other]; exact { hreceives with })
  simpa only [Session.setOutbox, outbox, update_eq_self] using hsound

theorem Sound.frame (h : s.Sound) (side : Side) (fault : Option ℕ) :
    (s.frame suite side fault).Sound := by
  have hsends := h.sends side
  have hreceives := h.receives_other side
  rw [Session.frame]
  cases hcall : s.call side with
  | none => exact h
  | some c =>
    dsimp only
    obtain ⟨hdown, -, -⟩ := hsends.running c hcall
    have hlt : (s.frames side).length < 2 ^ 64 := (hsends.next hdown).1
    have hnonce : (s.conn side).sendNonce = nonceOf (s.frames side).length := (hsends.next hdown).2
    by_cases hrest : c.rest = []
    · rw [if_pos hrest]
      have hsound := h.setOutbox side _ (s.wire side) rfl (hsends.return_ hcall hrest)
        (by rw [inbox_other]; exact { hreceives with })
      simpa only [Session.setOutbox, outbox, update_eq_self] using hsound
    rw [if_neg hrest]
    have hchunk : (if dataMaxSize < c.rest.length then c.rest.take dataMaxSize else c.rest) =
        c.rest.take dataMaxSize := by
      split_ifs with hlong
      · rfl
      · exact (take_of_length_le (not_lt.1 hlong)).symm
    have hnext : (if dataMaxSize < c.rest.length then c.rest.drop dataMaxSize else []) =
        c.rest.drop dataMaxSize := by
      split_ifs with hlong
      · rfl
      · exact (drop_eq_nil_of_le (not_lt.1 hlong)).symm
    rw [hchunk, hnext]
    have hincr := incrNonce_nonceOf hlt
    rw [← hnonce] at hincr
    rw [hincr]
    by_cases hmax : (s.frames side).length + 1 = 2 ^ 64
    · rw [if_pos hmax]
      have hsound := h.setOutbox side _ (s.wire side) rfl (hsends.panics suite hcall)
        (hreceives.sealed hsends nofun)
      simpa only [Session.setOutbox, outbox, sealNext, update_eq_self] using hsound
    · have hlt' : (s.frames side).length + 1 < 2 ^ 64 := Nat.lt_of_le_of_ne hlt hmax
      rw [if_neg hmax]
      cases fault with
      | none =>
        have hsound := h.setOutbox side _ _ rfl (hsends.goes_on suite hcall hlt')
          (hreceives.sealed hsends fun hok => ⟨hok, by rw [inbox, other_other]⟩)
        simpa only [Session.setOutbox, outbox, sealNext, update_eq_self] using hsound
      | some written =>
        have hsound := h.setOutbox side _ (s.wire side ++ (suite.aeadSeal (s.conn side).sendSecret
            (s.conn side).sendNonce (fillFrame (s.conn side).sendFrame
              (c.rest.take dataMaxSize))).take written) rfl
          (hsends.fails suite hcall hlt')
          (hreceives.sealed hsends nofun)
        simpa only [Session.setOutbox, outbox, sealNext, update_eq_self] using hsound

/-- A frame opened with the key of a direction is the frame of that direction with the nonce. -/
theorem Sound.frame_of_open (h : s.Sound) {n : ℕ} (hn : n < 2 ^ 64) {ciphertext plaintext : Bytes}
    (hopen : s.aeadOpen (s.conn side).recvSecret (nonceOf n) ciphertext = some plaintext) :
    ∃ e, (s.frames side.other)[n]? = some e ∧ e.plaintext = plaintext := by
  obtain ⟨e, hfind, rfl⟩ := map_eq_some_iff.1 hopen
  have hmatch := find?_some hfind
  simp only [decide_eq_true_iff] at hmatch
  obtain ⟨hkey, hnonce, -⟩ := hmatch
  have hmem : ∃ w, e ∈ s.frames w := by
    rcases mem_append.1 (mem_of_find?_eq_some hfind) with he | he
    · exact ⟨_, he⟩
    · exact ⟨_, he⟩
  obtain ⟨w, hw⟩ := hmem
  obtain ⟨m, hm⟩ := mem_iff_getElem?.1 hw
  obtain ⟨hkey', hnonce'⟩ := (h.sends w).numbered m e hm
  obtain rfl : m = n :=
    nonceOf_inj ((h.sends w).nonce_lt hm) hn (hnonce'.symm.trans hnonce)
  -- The key tells the direction.
  have hsecret : (s.conn w).sendSecret = (s.conn side.other).sendSecret :=
    hkey'.symm.trans (hkey.trans (h.receives side).secret)
  obtain rfl : w = side.other := by
    rcases eq_or_eq_other w side.other with hw | hw
    · exact hw
    rw [hw, other_other] at hsecret
    apply absurd hsecret
    cases side with
    | left => exact h.distinct
    | right => exact h.distinct.symm
  exact ⟨e, hm, rfl⟩

theorem Sound.open_frame (h : s.Sound) {n : ℕ} {e : Sealed}
    (he : (s.frames side.other)[n]? = some e) :
    s.aeadOpen (s.conn side).recvSecret (nonceOf n) e.ciphertext = some e.plaintext := by
  obtain ⟨hkey, hnonce⟩ := (h.sends side.other).numbered n e he
  cases hopen : s.aeadOpen (s.conn side).recvSecret (nonceOf n) e.ciphertext with
  | some plaintext =>
    obtain ⟨e', he', rfl⟩ := h.frame_of_open ((h.sends side.other).nonce_lt he) hopen
    rw [some.inj (he.symm.trans he')]
  | none =>
    have hnone := find?_eq_none.1 (map_eq_none_iff.1 hopen) e ?_
    · simp only [decide_eq_true_iff] at hnone
      exact absurd ⟨hkey.trans (h.receives side).secret.symm, hnonce, trivial⟩ hnone
    · cases side with
      | left => exact mem_append_right _ (mem_of_getElem? he)
      | right => exact mem_append_left _ (mem_of_getElem? he)

def setInbox (s : Session) (side : Side) (i : Inbox) (broken : Bool) : Session :=
  { s with
    conn := update s.conn side
      { s.conn side with recvSecret := i.secret, recvNonce := i.nonce, recvBuffer := i.buffer }
    wire := update s.wire side.other i.wire
    got := update s.got side i.got
    opened := update s.opened side i.opened
    readErrors := update s.readErrors side i.readErrors
    broken := update s.broken side.other broken
    recvDown := update s.recvDown side i.down }

/-- A read changes what an endpoint has for receiving, and may find that the direction is broken. -/
theorem Sound.setInbox (h : s.Sound) (side : Side) (i : Inbox) (broken : Bool)
    (hbroken : broken = false → s.broken side.other = false)
    (hreceives : Receives { s.outbox side.other with broken := broken } i) :
    (s.setInbox side i broken).Sound := by
  have hne : side ≠ side.other := (other_ne side).symm
  have hsends := h.sends side.other
  refine h.ofDirection side.other ?_ ?_ ?_ ?_ ?_
  · dsimp only [outbox, Session.setInbox]
    rw [update_of_ne hne.symm]
  · dsimp only [outbox, Session.setInbox]
    rw [other_other, update_self, update_of_ne hne]
  · dsimp only [inbox, Session.setInbox]
    rw [other_other]
    simp only [update_of_ne hne.symm, update_of_ne hne]
  · dsimp only [outbox, Session.setInbox]
    rw [update_of_ne hne.symm, update_self]
    exact { hsends with written := fun hok => hsends.written (hbroken hok) }
  · rw [other_other]
    dsimp only [outbox, inbox, Session.setInbox]
    simp only [update_of_ne hne.symm, update_self]
    exact hreceives

theorem Sound.readFault (h : s.Sound) (side : Side) (consumed : ℕ) :
    (s.readFault side consumed).Sound := by
  rw [Session.readFault]
  split_ifs
  · exact h
  have hreceives := h.receives side
  have hsound := h.setInbox side { s.inbox side with
      wire := (s.wire side.other).drop consumed
      readErrors := s.readErrors side ++ [.transport] } true (by simp)
    ⟨hreceives.secret, hreceives.next, hreceives.opened, hreceives.got,
      nofun⟩
  simpa only [Session.setInbox, inbox, update_eq_self] using hsound

theorem Sound.readFrame (h : s.Sound) (size : ℕ) (hdown : s.recvDown side = false)
    (hempty : (s.conn side).recvBuffer = [])
    (hlong : ¬(s.wire side.other).length < aeadSizeOverhead + totalFrameSize) :
    (s.read side size).Sound := by
  have hsends := h.sends side.other
  have hreceives := h.receives side
  have hlt : s.opened side < 2 ^ 64 := (hreceives.next hdown).1
  have hnonce : (s.conn side).recvNonce = nonceOf (s.opened side) := (hreceives.next hdown).2
  have hsame (key nonce ciphertext wire : Bytes) :
      aeadOpen { s with wire := update s.wire side.other wire } key nonce ciphertext =
        s.aeadOpen key nonce ciphertext := rfl
  dsimp only [read]
  rw [if_neg (by simp [hdown]), if_neg (by simp [hempty]), if_neg hlong, hsame]
  cases hopen : s.aeadOpen (s.conn side).recvSecret (s.conn side).recvNonce
      ((s.wire side.other).take (aeadSizeOverhead + totalFrameSize)) with
  | none =>
    dsimp only
    have hsound := h.setInbox side { s.inbox side with
        wire := (s.wire side.other).drop (aeadSizeOverhead + totalFrameSize)
        readErrors := s.readErrors side ++ [.decrypt] } (s.broken side.other) id
      ⟨hreceives.secret, hreceives.next, hreceives.opened, hreceives.got, fun hok => ?_⟩
    · simpa only [Session.setInbox, inbox, update_eq_self] using hsound
    · -- The next frame is there, and it opens.
      obtain ⟨e, he, hwire⟩ := hreceives.next_frame hsends hok hlong
      have hopen' := h.open_frame he
      rw [← hwire] at hopen'
      rw [hnonce] at hopen
      exact absurd (hopen.symm.trans hopen') (by simp)
  | some frame =>
    dsimp only
    rw [hnonce] at hopen ⊢
    obtain ⟨e, he, rfl⟩ := h.frame_of_open hlt hopen
    rw [incrNonce_nonceOf hlt]
    by_cases hmax : s.opened side + 1 = 2 ^ 64
    · rw [if_pos hmax]
      have hsound := h.setInbox side { s.inbox side with
          wire := (s.wire side.other).drop (aeadSizeOverhead + totalFrameSize)
          down := true } true (by simp)
        ⟨hreceives.secret, nofun, hreceives.opened, hreceives.got,
          nofun⟩
      simpa only [Session.setInbox, inbox, update_eq_self] using hsound
    · rw [if_neg hmax]
      dsimp only
      have hchunk := (hsends.framed e (mem_of_getElem? he)).2
      rw [if_neg (not_lt.2 hchunk)]
      have hsound := h.setInbox side _ (s.broken side.other) id
        (hreceives.opens hsends he hempty
          ((s.wire side.other).drop (aeadSizeOverhead + totalFrameSize))
          (fun _ => ⟨Nat.lt_of_le_of_ne hlt hmax, rfl⟩) (fun hok => ?_) size)
      · simpa only [Session.setInbox, inbox, update_eq_self, chunkOf] using hsound
      · obtain ⟨e', he', hwire⟩ := hreceives.next_frame hsends hok hlong
        rw [some.inj (he.symm.trans he'), ← hwire]
        exact (take_append_drop _ _).symm

theorem Sound.read (h : s.Sound) (side : Side) (size : ℕ) : (s.read side size).Sound := by
  by_cases hdown : s.recvDown side = true
  · rw [Session.read, if_pos hdown]
    exact h
  by_cases hbuffer : 0 < (s.conn side).recvBuffer.length
  · have hsound := h.setInbox side _ (s.broken side.other) id
      ((h.receives side).fromBuffer size)
    rw [Session.read, if_neg hdown, if_pos hbuffer]
    simpa only [Session.setInbox, inbox, update_eq_self] using hsound
  by_cases hshort : (s.wire side.other).length < aeadSizeOverhead + totalFrameSize
  · rw [Session.read, if_neg hdown, if_neg hbuffer, if_pos hshort]
    exact h
  · exact h.readFrame size (Bool.not_eq_true _ ▸ hdown) (by simpa using hbuffer) hshort

/-! ## Whole sessions -/

theorem makeSecretConnection_empty {a b : Bytes} {sc : SecretConnection}
    (h : makeSecretConnection suite a b = some sc) :
    sc.recvBuffer = [] ∧ sc.recvNonce = nonceOf 0 ∧ sc.sendNonce = nonceOf 0 ∧
      sc.sendFrame.length = totalFrameSize := by
  dsimp only [makeSecretConnection] at h
  obtain ⟨secret, -, rfl⟩ := map_eq_some_iff.1 h
  have hzero : replicate 12 0 = nonceOf 0 := by decide
  exact ⟨rfl, hzero, hzero, length_replicate⟩

theorem handshake_sound {a b : Bytes} (hne : suite.pubKey a ≠ suite.pubKey b)
    (h : handshake suite a b = some s) : s.Sound := by
  rw [handshake, bind_eq_bind, bind_eq_some_iff] at h
  obtain ⟨left, hleft, h⟩ := h
  rw [bind_eq_some_iff] at h
  obtain ⟨right, hright, h⟩ := h
  cases h
  obtain ⟨hlr, hrl, hdistinct⟩ := makeSecretConnection_keys hne hleft hright
  have hempty (side : Side) : ((if side = .left then left else right).recvBuffer = [] ∧
      (if side = .left then left else right).recvNonce = nonceOf 0 ∧
      (if side = .left then left else right).sendNonce = nonceOf 0 ∧
      (if side = .left then left else right).sendFrame.length = totalFrameSize) := by
    split_ifs
    · exact makeSecretConnection_empty hleft
    · exact makeSecretConnection_empty hright
  refine ⟨hdistinct, fun side => ?_, fun side => ?_⟩
  · refine ⟨fun i e he => absurd he (by simp [outbox]), nofun, rfl,
      Nat.zero_le _, fun _ => ⟨by norm_num [outbox], (hempty side).2.2.1⟩, (hempty side).2.2.2,
      fun c hc => absurd hc (by simp [outbox]), nofun, fun _ => rfl⟩
  · refine ⟨?_, fun _ => ⟨by norm_num [inbox], (hempty side).2.1⟩, Nat.zero_le _,
      (hempty side).1, fun _ => ⟨rfl, rfl⟩⟩
    cases side with
    | left => exact hrl.symm
    | right => exact hlr.symm

theorem Sound.step (h : s.Sound) (event : SecretEvent) : (s.step suite event).Sound := by
  cases event with
  | write side data => exact h.write side data
  | frame side fault => exact h.frame side fault
  | read side size => exact h.read side size
  | readFault side consumed => exact h.readFault side consumed

theorem Sound.after (h : s.Sound) (events : List SecretEvent) : (s.after suite events).Sound := by
  induction events generalizing s with
  | nil => exact h
  | cons event events ih => exact ih (h.step event)

/-- The bytes that calls of `Write` at an endpoint have gone through. -/
def written (s : Session) (side : Side) : Bytes := (s.chunks side).flatten

/-- What an endpoint writes is a byte stream for the other one. -/
structure Reliable (s : Session) (side : Side) : Prop where
  isStart : s.got side.other <+: s.written side
  /-- Once every frame has been opened and the buffer is empty, all bytes have been read. -/
  all : s.opened side.other = (s.frames side).length → (s.conn side.other).recvBuffer = [] →
    s.got side.other = s.written side
  /-- While the transport works, no read fails, and when nothing is under way all bytes have been
  read. -/
  works : s.broken side = false → s.readErrors side.other = [] ∧
    (s.wire side = [] → (s.conn side.other).recvBuffer = [] → s.got side.other = s.written side)
  /-- The bytes gone through are the data of the calls that have returned and what the call in
  progress has taken. -/
  written : s.broken side = false →
    s.written side = ((s.returns side).map WriteReturn.data).flatten ++ taken (s.call side)
  fullLength : ∀ r ∈ s.returns side, r.failed = false → r.n = r.data.length

/-- No key is used with a nonce twice, and the directions have different keys. -/
structure NoncesFresh (s : Session) : Prop where
  nodup : ((s.frames .left ++ s.frames .right).map fun e => (e.key, e.nonce)).Nodup
  keys : (s.conn .left).sendSecret ≠ (s.conn .right).sendSecret

theorem Sound.reliable (h : s.Sound) (side : Side) : s.Reliable side := by
  have hsends := h.sends side
  have hreceives := h.receives_other side
  have hgot : s.got side.other ++ (s.conn side.other).recvBuffer =
      ((s.chunks side).take (s.opened side.other)).flatten := hreceives.got
  have hall (hopened : (s.frames side).length ≤ s.opened side.other)
      (hbuffer : (s.conn side.other).recvBuffer = []) : s.got side.other = s.written side := by
    have hchunks : (s.chunks side).length ≤ s.opened side.other :=
      hsends.length_chunks.trans_le hopened
    rw [hbuffer, append_nil, take_of_length_le hchunks] at hgot
    exact hgot
  refine ⟨?_, fun hopened => hall hopened.ge, fun hok => ⟨(hreceives.intact hok).2,
    fun hwire => hall ?_⟩, hsends.written, hsends.returned⟩
  · refine ⟨(s.conn side.other).recvBuffer ++
      ((s.chunks side).drop (s.opened side.other)).flatten, ?_⟩
    rw [← append_assoc, hgot, ← flatten_append, take_append_drop, written]
  · -- A frame under way would have its bytes in the transport.
    have hintact := (hreceives.intact hok).1
    rw [← inbox_other, hwire] at hintact
    by_contra hlt
    have hlt' : s.opened side.other < (s.frames side).length := not_le.1 hlt
    have he := getElem?_eq_getElem hlt'
    have hlength := (hsends.framed _ (mem_of_getElem? he)).1
    dsimp only [outbox, inbox] at hintact
    rw [drop_eq_getElem_cons hlt', map_cons, flatten_cons] at hintact
    rw [show (s.frames side)[s.opened side.other].ciphertext = [] from
      (append_eq_nil_iff.1 hintact.symm).1] at hlength
    exact absurd hlength (by decide)

theorem Sound.noncesFresh (h : s.Sound) : s.NoncesFresh := by
  refine ⟨?_, h.distinct⟩
  rw [map_append, nodup_append]
  refine ⟨(h.sends .left).nodup, (h.sends .right).nodup, fun x hx y hy heq => h.distinct ?_⟩
  obtain ⟨e, he, rfl⟩ := mem_map.1 hx
  obtain ⟨e', he', rfl⟩ := mem_map.1 hy
  obtain ⟨m, hm⟩ := mem_iff_getElem?.1 he
  obtain ⟨m', hm'⟩ := mem_iff_getElem?.1 he'
  exact ((h.sends .left).numbered m e hm).1.symm.trans
    ((congrArg Prod.fst heq).trans ((h.sends .right).numbered m' e' hm').1)

/-- After the handshake of endpoints with distinct ephemeral keys, whatever is written and read,
each direction is a byte stream and no nonce is used twice. -/
theorem reliable_and_fresh (suite : Suite) (leftPriv rightPriv : Bytes)
    (hne : suite.pubKey leftPriv ≠ suite.pubKey rightPriv) {s : Session}
    (hs : handshake suite leftPriv rightPriv = some s) (events : List SecretEvent) :
    (∀ side, (s.after suite events).Reliable side) ∧ (s.after suite events).NoncesFresh :=
  have hsound := (handshake_sound hne hs).after events
  ⟨hsound.reliable, hsound.noncesFresh⟩

def sampleSuite : Suite where
  pubKey := id
  x25519 _ _ := some []
  hkdf _ := replicate 32 1 ++ replicate 64 2
  aeadSeal _ _ plaintext := plaintext ++ replicate 16 0
  agree _ _ := rfl
  independent _ := by decide
  length_aeadSeal _ _ plaintext := by
    rw [length_append, length_replicate]
    rfl

/-- Two frames to the right, with one to the left between them. -/
def crossing : List SecretEvent :=
  [.write .left (replicate 1025 7), .frame .left none, .write .right [9], .frame .right none,
    .frame .left none, .read .right 1000, .read .left 4, .read .right 1000, .read .right 1000]

theorem reliable_and_fresh_crossing : ∃ s, handshake sampleSuite [1] [2] = some s ∧
    (((s.after sampleSuite crossing).frames .left).length,
      ((s.after sampleSuite crossing).frames .right).length,
      (s.after sampleSuite crossing).opened .right) = (2, 1, 2) ∧
    (s.after sampleSuite crossing).got .right = (s.after sampleSuite crossing).written .left ∧
    (s.after sampleSuite crossing).NoncesFresh := by
  obtain ⟨s, hs⟩ : ∃ s, handshake sampleSuite [1] [2] = some s := ⟨_, rfl⟩
  obtain ⟨hreliable, hfresh⟩ := reliable_and_fresh sampleSuite [1] [2] (by decide) hs crossing
  have hcounts : (handshake sampleSuite [1] [2]).map (fun s =>
      (((s.after sampleSuite crossing).frames .left).length,
        ((s.after sampleSuite crossing).frames .right).length,
        (s.after sampleSuite crossing).opened .right,
        ((s.after sampleSuite crossing).conn .right).recvBuffer)) = some (2, 1, 2, []) := by
    decide +kernel
  rw [hs, Option.map_some, Option.some.injEq] at hcounts
  simp only [Prod.mk.injEq] at hcounts
  obtain ⟨hleft, hright, hopened, hbuffer⟩ := hcounts
  exact ⟨s, hs, by rw [hleft, hright, hopened],
    (hreliable .left).all (hopened.trans hleft.symm) hbuffer, hfresh⟩

end Session
end CelestiaCore.P2P
