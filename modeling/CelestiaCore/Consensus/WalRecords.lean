import CelestiaCore.Consensus.WalProto
import CelestiaCore.Consensus.WalSearch
import CelestiaCore.Wire.RecordStream

/-!
# Records of the write-ahead log

The encoder and the decoder of `consensus/wal.go`, and `repairWalFile` of `consensus/state.go`. The
decoder validates a message and the encoder does not.
-/
namespace CelestiaCore.WAL
open Wire List
open Consensus (msgToProto msgFromProto)

def maxMsgSizeBytes : Nat := 512 * 1024 + 24

/-- `binary.BigEndian.PutUint32`. -/
def putUint32 (n : Nat) : Bytes := (leBytes 4 n).reverse

/-- `binary.BigEndian.Uint32`. -/
def uint32 (bytes : Bytes) : Nat := leValue bytes.reverse

@[simp] theorem length_putUint32 (n : Nat) : (putUint32 n).length = 4 := by simp [putUint32]

theorem uint32_putUint32 {n : Nat} (h : n < 2 ^ 32) : uint32 (putUint32 n) = n := by
  rw [uint32, putUint32, reverse_reverse, leValue_leBytes 4 n (by omega)]

def crcBit (c : UInt32) : UInt32 :=
  if c &&& 1 = 1 then (c >>> 1) ^^^ 0x82F63B78 else c >>> 1

def crcByte (c : UInt32) (b : UInt8) : UInt32 := crcBit^[8] (c ^^^ b.toUInt32)

/-- `crc32.Checksum` with the Castagnoli table. -/
def crc32c (data : Bytes) : UInt32 := data.foldl crcByte 0xFFFFFFFF ^^^ 0xFFFFFFFF

example : crc32c [49, 50, 51, 52, 53, 54, 55, 56, 57] = 0xE3069283 := by decide +kernel

section Records
variable (crc : Bytes → UInt32) (codec : MessageCodec)

def record (data : Bytes) : Bytes :=
  putUint32 (crc data).toNat ++ (putUint32 data.length ++ data)

/-- `WALEncoder.Encode`: the bytes it writes. The panic on a message that cannot be marshalled is an
error. -/
def encode (v : TimedWALMessage) : Except String Bytes := do
  let pbMsg ← walToProto v.msg
  match marshal codec v.time pbMsg with
  | none => .error "encode timed wal message failure"
  | some data =>
    let length := data.length % 2 ^ 32
    if maxMsgSizeBytes < length then
      .error s!"msg is too big: {length} bytes, max: {maxMsgSizeBytes} bytes"
    else .ok (putUint32 (crc data).toNat ++ (putUint32 length ++ data))

def encodeAll : List TimedWALMessage → Except String Bytes
  | [] => .ok []
  | v :: vs => do
    let first ← encode crc codec v
    let rest ← encodeAll vs
    .ok (first ++ rest)

/-- `WALDecoder.Decode` once the data was read. -/
def decodeData (sum : Nat) (data : Bytes) : Decoded TimedWALMessage :=
  if (crc data).toNat ≠ sum then
    .corrupted s!"checksums do not match: read: {sum}, actual: {(crc data).toNat}"
  else
    match unmarshal codec data with
    | none => .corrupted "failed to decode data"
    | some res =>
      match walFromProto res.msg with
      | .error e => .corrupted s!"failed to convert from proto: {e}"
      | .ok walMsg => .message ⟨res.time, walMsg⟩

/-- `WALDecoder.Decode`, with what is left to read. A read that ends early uses up the stream. -/
def decode (bytes : Bytes) : Decoded TimedWALMessage × Bytes :=
  if bytes = [] then (.eof, [])
  else if bytes.length < 8 then (.corrupted "failed to read header: unexpected EOF", [])
  else
    let length := uint32 ((bytes.drop 4).take 4)
    let rest := bytes.drop 8
    if maxMsgSizeBytes < length then
      (.corrupted (s!"length {length} exceeded maximum possible value of " ++
        s!"{maxMsgSizeBytes} bytes"), rest)
    else if rest.length < length then
      (.corrupted (if rest = [] then "failed to read data: EOF"
        else "failed to read data: unexpected EOF"), [])
    else (decodeData crc codec (uint32 (bytes.take 4)) (rest.take length), rest.drop length)

/-- The loop of `repairWalFile`: `out` is what was written. -/
def repairLoop : Nat → Bytes → Bytes → Option (Except String Bytes)
  | 0, _, _ => none
  | rounds + 1, bytes, out =>
    match decode crc codec bytes with
    | (.message msg, rest) =>
      match encode crc codec msg with
      | .error e => some (.error s!"failed to encode msg: {e}")
      | .ok written => repairLoop rounds rest (out ++ written)
    | _ => some (.ok out)

/-- `repairWalFile`, in a number of rounds: the new file. -/
def repairWalFile (rounds : Nat) (bytes : Bytes) : Option (Except String Bytes) :=
  repairLoop crc codec rounds bytes []

/-- What `SearchForEndHeight` looks at. -/
def toItem : Decoded TimedWALMessage → Item TimedWALMessage
  | .message ⟨_, .endHeight height⟩ => .endHeight height.toInt
  | .message m => .message m
  | _ => .corrupted

/-- The inner loop of `SearchForEndHeight` over the bytes of a file, with corrupted records ignored.
-/
def scanFile (rounds : Nat) (height lastHeightFound : Int) (bytes : Bytes) :
    Option (Scan TimedWALMessage) :=
  (readAll (decode crc codec) rounds bytes).map fun ds =>
    scan true height lastHeightFound (ds.map toItem)

/-- The message converts back from its protobuf message: `WALFromProto` runs `ValidateBasic` on a
consensus message, `WALToProto` does not. -/
def ConvertsBack (m : WALMessage) : Prop :=
  ∀ pb, walToProto m = .ok pb → walFromProto (some (some pb)) = .ok m

def Fits (v : TimedWALMessage) : Prop :=
  ∀ pb data, walToProto v.msg = .ok pb → marshal codec v.time pb = some data →
    data.length < 2 ^ 32

end Records

/-- Everything converts back but a consensus message that is not valid or has a nil bit array of
votes. -/
theorem convertsBack_iff (m : WALMessage) : ConvertsBack m ↔
    ∀ msg peerID pb, m = .msgInfo msg peerID → msgToProto msg = .ok pb →
      msg.validateBasic = .ok () ∧ ∀ h r t b, msg ≠ .voteSetBits h r t b none := by
  cases m with
  | msgInfo msg peerID =>
    cases hpb : msgToProto msg with
    | error e =>
      simp only [ConvertsBack, walToProto, hpb, error_bind, reduceCtorEq, false_implies,
        implies_true, true_iff]
      rintro _ _ _ ⟨rfl, rfl⟩ h
      rw [hpb] at h
      cases h
    | ok pb =>
      have hmsg := Consensus.msgFromProto_eq_self_iff hpb
      have hback : ConvertsBack (.msgInfo msg peerID) ↔ msgFromProto pb = .ok msg := by
        cases hfrom : msgFromProto pb <;>
          simp [ConvertsBack, walToProto, walFromProto, unwrap, hpb, hfrom, Except.mapError]
      rw [hback, hmsg]
      constructor
      · rintro hvalid _ _ _ ⟨rfl, rfl⟩ -
        exact hvalid
      · intro hvalid
        exact hvalid msg peerID pb rfl hpb
  | timeoutInfo duration height round step =>
    have hstep := step.toNat_lt
    simp [ConvertsBack, walToProto, walFromProto]
    omega
  | _ => simp [ConvertsBack, walToProto, walFromProto]

section Framing
variable {crc : Bytes → UInt32} {codec : MessageCodec}

/-- A written message and its data. -/
structure Writes (crc : Bytes → UInt32) (codec : MessageCodec) (v : TimedWALMessage)
    (data : Bytes) : Prop where
  length_le : data.length ≤ maxMsgSizeBytes
  encode : encode crc codec v = .ok (record crc data)
  read : decodeData crc codec (crc data).toNat data = .message v

theorem writes_of_encode {v : TimedWALMessage} {bytes : Bytes}
    (henc : encode crc codec v = .ok bytes)
    (hback : ConvertsBack v.msg) (hfits : Fits codec v) :
    ∃ data, bytes = record crc data ∧ Writes crc codec v data := by
  have henc' := henc
  unfold encode at henc
  cases hpb : walToProto v.msg with
  | error e =>
    rw [hpb] at henc
    cases henc
  | ok pb =>
    simp only [hpb, ok_bind] at henc
    cases hdata : marshal codec v.time pb with
    | none => simp [hdata] at henc
    | some data =>
      have hlen := hfits pb data hpb hdata
      simp only [hdata, Nat.mod_eq_of_lt hlen] at henc
      split_ifs at henc with hmax
      cases henc
      refine ⟨data, rfl, not_lt.1 hmax, henc', ?_⟩
      simp [decodeData, unmarshal_of_marshal hdata, hback pb hpb]

theorem length_record (data : Bytes) : (record crc data).length = 8 + data.length := by
  simp [record]
  omega

theorem decode_header {sum length : Nat} (hsum : sum < 2 ^ 32) (hlen : length ≤ maxMsgSizeBytes)
    (rest : Bytes) :
    decode crc codec (putUint32 sum ++ (putUint32 length ++ rest)) =
      if rest.length < length then
        (.corrupted (if rest = [] then "failed to read data: EOF"
          else "failed to read data: unexpected EOF"), [])
      else (decodeData crc codec sum (rest.take length), rest.drop length) := by
  have hne : putUint32 sum ++ (putUint32 length ++ rest) ≠ [] := by
    intro h
    simpa using congrArg List.length h
  have hlong : ¬(putUint32 sum ++ (putUint32 length ++ rest)).length < 8 := by
    simp only [length_append, length_putUint32]
    omega
  have hfirst : (putUint32 sum ++ (putUint32 length ++ rest)).take 4 = putUint32 sum :=
    take_left' (length_putUint32 _)
  have hsecond : (putUint32 sum ++ (putUint32 length ++ rest)).drop 4 = putUint32 length ++ rest :=
    drop_left' (length_putUint32 _)
  have hrest : (putUint32 sum ++ (putUint32 length ++ rest)).drop 8 = rest := by
    rw [← drop_drop (i := 4) (j := 4), hsecond, drop_left' (length_putUint32 _)]
  have hlength : uint32 ((putUint32 length ++ rest).take 4) = length := by
    rw [take_left' (length_putUint32 _), uint32_putUint32]
    unfold maxMsgSizeBytes at hlen
    omega
  unfold decode
  rw [if_neg hne, if_neg hlong]
  dsimp only
  rw [hsecond, hlength, hrest, hfirst, uint32_putUint32 hsum, if_neg (not_lt.2 hlen)]

theorem decode_record {data : Bytes} (hlen : data.length ≤ maxMsgSizeBytes) (rest : Bytes) :
    decode crc codec (record crc data ++ rest) =
      (decodeData crc codec (crc data).toNat data, rest) := by
  rw [record, append_assoc, append_assoc, decode_header (crc data).toNat_lt hlen,
    if_neg (by simp), take_left, drop_left]

theorem decode_torn {data : Bytes} (hlen : data.length ≤ maxMsgSizeBytes) {cut : Nat}
    (hpos : 0 < cut)
    (hcut : cut < (record crc data).length) :
    ∃ cause, decode crc codec ((record crc data).take cut) = (.corrupted cause, []) := by
  have htake : ((record crc data).take cut).length = cut := by
    rw [length_take, Nat.min_eq_left hcut.le]
  rw [length_record] at hcut
  by_cases hheader : cut < 8
  · -- in the header
    unfold decode
    rw [if_neg (by
      intro h
      rw [h] at htake
      simp at htake
      omega), if_pos (by omega)]
    exact ⟨_, rfl⟩
  · -- in the data
    obtain ⟨n, rfl⟩ : ∃ n, cut = 4 + (4 + n) := ⟨cut - 8, by omega⟩
    have hstart : (record crc data).take (4 + (4 + n)) =
        putUint32 (crc data).toNat ++ (putUint32 data.length ++ data.take n) := by
      simp [record, take_append, take_of_length_le]
    rw [hstart, decode_header (crc data).toNat_lt hlen, if_pos (by
      rw [length_take]
      omega)]
    exact ⟨_, rfl⟩

def written (crc : Bytes → UInt32) (codec : MessageCodec) (v : TimedWALMessage) : Bytes :=
  match encode crc codec v with
  | .ok bytes => bytes
  | .error _ => []

theorem Writes.written_eq {v : TimedWALMessage} {data : Bytes} (h : Writes crc codec v data) :
    written crc codec v = record crc data := by
  rw [written, h.encode]

theorem decode_progresses (crc : Bytes → UInt32) (codec : MessageCodec) :
    Progresses (decode crc codec) where
  eof := rfl
  forward := by
    intro bytes hne
    have hpos := length_pos_iff.2 hne
    unfold decode
    rw [if_neg hne]
    split_ifs with hshort
    · exact ⟨by simp, by simpa using hpos⟩
    dsimp only
    split_ifs
    · refine ⟨by simp, ?_⟩
      rw [length_drop]
      omega
    · exact ⟨by simp, by simpa using hpos⟩
    · exact ⟨by simp, by simpa using hpos⟩
    · constructor
      · unfold decodeData
        split_ifs
        · simp
        · split
          · simp
          · split <;> simp
      · rw [length_drop, length_drop]
        omega

theorem wal_framing (crc : Bytes → UInt32) (codec : MessageCodec) :
    Framing (decode crc codec) (written crc codec) fun v => ∃ data, Writes crc codec v data where
  toProgresses := decode_progresses crc codec
  ne_nil := by
    rintro v ⟨data, h⟩ hnil
    rw [h.written_eq] at hnil
    have hlen := congrArg List.length hnil
    rw [length_record, length_nil] at hlen
    omega
  whole := by
    rintro v rest ⟨data, h⟩
    rw [h.written_eq, decode_record h.length_le, h.read]
  torn := by
    rintro v cut ⟨data, h⟩ hpos hcut
    rw [h.written_eq] at hcut ⊢
    exact decode_torn h.length_le hpos hcut

variable {vs : List TimedWALMessage}

theorem encodeAll_eq_ok {file : Bytes} (h : encodeAll crc codec vs = .ok file) :
    (∀ v ∈ vs, ∃ bytes, encode crc codec v = .ok bytes) ∧ file = stream (written crc codec) vs := by
  induction vs generalizing file with
  | nil =>
    cases h
    exact ⟨by simp, rfl⟩
  | cons v vs ih =>
    rw [encodeAll] at h
    cases hfirst : encode crc codec v with
    | error e =>
      rw [hfirst] at h
      cases h
    | ok first =>
      cases hrest : encodeAll crc codec vs with
      | error e =>
        rw [hfirst, hrest] at h
        cases h
      | ok rest =>
        rw [hfirst, hrest] at h
        cases h
        obtain ⟨hall, rfl⟩ := ih hrest
        refine ⟨forall_mem_cons.2 ⟨⟨first, hfirst⟩, hall⟩, ?_⟩
        rw [stream_cons, written, hfirst]

theorem encodeAll_of_forall (h : ∀ v ∈ vs, ∃ bytes, encode crc codec v = .ok bytes) :
    encodeAll crc codec vs = .ok (stream (written crc codec) vs) := by
  induction vs with
  | nil => rfl
  | cons v vs ih =>
    obtain ⟨⟨bytes, hv⟩, hvs⟩ := forall_mem_cons.1 h
    rw [encodeAll, hv, ih hvs, stream_cons, written, hv]
    rfl

theorem repairLoop_eq {rounds : Nat} {bytes out : Bytes}
    (hread : readMessages (decode crc codec) rounds bytes = some vs)
    (henc : ∀ v ∈ vs, ∃ data, encode crc codec v = .ok data) :
    repairLoop crc codec rounds bytes out = some (.ok (out ++ stream (written crc codec) vs)) := by
  induction rounds generalizing bytes out vs with
  | zero => cases hread
  | succ rounds ih =>
    rw [readMessages] at hread
    rw [repairLoop]
    split at hread
    · next v rest hstep =>
      obtain ⟨vs, hvs, rfl⟩ := Option.map_eq_some_iff.1 hread
      obtain ⟨⟨data, hv⟩, hrest⟩ := forall_mem_cons.1 henc
      rw [hstep]
      dsimp only
      rw [hv]
      dsimp only
      rw [ih hvs hrest, stream_cons, written, hv, append_assoc]
    · next hstep =>
      cases hread
      split
      · next v rest heq => exact absurd heq (hstep v rest)
      · simp [stream]

end Framing

/-- A log cut at any byte is read as the messages with complete records, with a corruption error
unless the cut is between two records; the repaired file has exactly those. -/
theorem wal_survives_torn_writes (crc : Bytes → UInt32)
    (codec : MessageCodec) : (∀ (vs : List TimedWALMessage) (file : Bytes) (cut : Nat),
      encodeAll crc codec vs = .ok file → cut ≤ file.length →
      (∀ v ∈ vs, ConvertsBack v.msg ∧ Fits codec v) →
      ∃ k ≤ vs.length, ∃ kept, encodeAll crc codec (vs.take k) = .ok kept ∧ kept.length ≤ cut ∧
        (∀ j, k < j → j ≤ vs.length → ∃ longer, encodeAll crc codec (vs.take j) = .ok longer ∧
          cut < longer.length) ∧ (∃ tail, ((kept.length = cut ∧ tail = []) ∨
            kept.length < cut ∧ ∃ cause, tail = [.corrupted cause]) ∧
          ∀ rounds > cut, readAll (decode crc codec) rounds (file.take cut) =
            some ((vs.take k).map .message ++ tail)) ∧
        (∀ rounds > cut, repairWalFile crc codec rounds (file.take cut) = some (.ok kept)) ∧
        ∀ rounds > kept.length, readAll (decode crc codec) rounds kept =
          some ((vs.take k).map .message)) ∧
    ∀ (bytes : Bytes) (height lastHeightFound : Int), ∀ rounds > bytes.length,
      ∃ found, scanFile crc codec rounds height lastHeightFound bytes = some found := by
  have hframing := wal_framing crc codec
  constructor
  · intro vs file cut henc hcut hback
    obtain ⟨hall, rfl⟩ := encodeAll_eq_ok henc
    have hok : ∀ v ∈ vs, ∃ data, Writes crc codec v data := by
      intro v hv
      obtain ⟨bytes, hbytes⟩ := hall v hv
      obtain ⟨data, -, hwrites⟩ := writes_of_encode hbytes (hback v hv).1 (hback v hv).2
      exact ⟨data, hwrites⟩
    have hencode : ∀ j, encodeAll crc codec (vs.take j) =
      .ok (stream (written crc codec) (vs.take j)) :=
      fun j => encodeAll_of_forall fun v hv => hall v (mem_of_mem_take hv)
    obtain ⟨k, hk, hle, hmax, tail, htail, hread⟩ := hframing.read_torn hok hcut
    refine ⟨k, hk, _, hencode k, hle, fun j hj hjle => ⟨_, hencode j, hmax j hj hjle⟩,
      ⟨tail, htail, fun rounds hrounds => (hread rounds hrounds).1⟩, fun rounds hrounds => ?_,
      fun rounds hrounds => ?_⟩
    · exact repairLoop_eq (hread rounds hrounds).2 fun v hv => hall v (mem_of_mem_take hv)
    · have hkept : ∀ v ∈ vs.take k, ∃ data, Writes crc codec v data :=
        fun v hv => hok v (mem_of_mem_take hv)
      have hrecords := hframing.length_le_stream hkept
      obtain ⟨r, rfl⟩ : ∃ r, rounds = (vs.take k).length + (r + 1) :=
        ⟨rounds - (vs.take k).length - 1, by omega⟩
      have hwhole := hframing.readAll_stream hkept [] (r + 1)
      rw [append_nil, readAll_eof hframing.eof] at hwhole
      simpa using hwhole
  · intro bytes height lastHeightFound rounds hrounds
    obtain ⟨ds, hds⟩ := hframing.toProgresses.readAll_ends hrounds
    exact ⟨_, by rw [scanFile, hds]; rfl⟩

def sampleLog : List TimedWALMessage :=
  [⟨0, .endHeight 1⟩, ⟨0, .msgInfo (.hasVote 2 0 .prevote 0) []⟩]

def invalidLog : List TimedWALMessage :=
  [⟨0, .msgInfo (.hasVote 2 0 .proposal 0) []⟩]

/-- The encoder accepts the vote and the decoder takes its record for corrupted: a file that was not
cut is read as corrupted and repaired to an empty one. -/
theorem encoded_message_is_not_read : let file : Bytes := [175, 47, 60, 85, 0, 0, 0, 14,
      10, 0, 18, 10, 18, 8, 10, 6, 58, 4, 8, 2, 24, 32]
    encodeAll crc32c HasVote.codec invalidLog = .ok file ∧
      readAll (decode crc32c HasVote.codec) (file.length + 1) (file.take file.length) =
        some [.corrupted "failed to convert from proto: msgInfo from proto error: invalid Type"] ∧
      repairWalFile crc32c HasVote.codec (file.length + 1) file = some (.ok []) := by
  decide +kernel

/-- The sample log, cut in the header of its second record. -/
theorem torn_sample_log :
    ∃ k ≤ 2, ∃ kept, encodeAll crc32c HasVote.codec (sampleLog.take k) = .ok kept ∧
      kept.length ≤ 20 ∧ ∀ rounds > 20, repairWalFile crc32c HasVote.codec rounds
        ([239, 252, 71, 239, 0, 0, 0, 8, 10, 0, 18, 4, 34, 2, 8, 1, 125, 249, 49, 136] : Bytes) =
          some (.ok kept) := by
  have hback : ∀ v ∈ sampleLog, ConvertsBack v.msg ∧ Fits HasVote.codec v := by
    intro v hv
    simp only [sampleLog, mem_cons, not_mem_nil, or_false] at hv
    rcases hv with rfl | rfl
    · constructor
      · intro pb hpb
        cases hpb
        rfl
      · intro pb data hpb hdata
        cases hpb
        cases hdata
        decide +kernel
    · constructor
      · intro pb hpb
        cases hpb
        rfl
      · intro pb data hpb hdata
        cases hpb
        cases hdata
        decide +kernel
  obtain ⟨k, hk, kept, hkept, hle, -, -, hrepair, -⟩ :=
    (wal_survives_torn_writes crc32c HasVote.codec).1 sampleLog
      [239, 252, 71, 239, 0, 0, 0, 8, 10, 0, 18, 4, 34, 2, 8, 1, 125, 249, 49, 136, 0, 0, 0, 14,
        10, 0, 18, 10, 18, 8, 10, 6, 58, 4, 8, 2, 24, 1] 20 (by decide +kernel) (by decide) hback
  exact ⟨k, hk, kept, hkept, hle, hrepair⟩

end CelestiaCore.WAL
