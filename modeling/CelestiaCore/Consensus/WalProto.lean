import CelestiaCore.Consensus.Messages

/-!
# Messages of the write-ahead log

`consensus/msgs.go`, `WALToProto` and `WALFromProto`. The generated encoding of the consensus
messages that a log carries is a parameter. -/
namespace CelestiaCore.WAL
open Wire Int64 Option
open Consensus (Message ProtoMessage msgToProto msgFromProto)

/-- A message of the log. `other` is a value of a type that the log does not know. -/
inductive WALMessage where
  | eventDataRoundState (height : Int64) (round : Int32) (step : Bytes)
  | msgInfo (msg : Message) (peerID : Bytes)
  | timeoutInfo (duration height : Int64) (round : Int32) (step : UInt8)
  | endHeight (height : Int64)
  | other
  deriving DecidableEq, Repr

/-- A message with the time it was written at. -/
structure TimedWALMessage where
  time : Time
  msg : WALMessage
  deriving DecidableEq, Repr

/-- The generated methods of the wrapped `Message`, in which one of the messages may be set.
`Marshal` fails on an instant that a timestamp cannot hold. -/
structure MessageCodec where
  marshal : Option ProtoMessage → Option Bytes
  unmarshalInto : Option ProtoMessage → Bytes → Option (Option ProtoMessage)
  unmarshal_marshal : ∀ p data, marshal p = some data → unmarshalInto none data = some p

def unwrap : Option ProtoMessage → Except String ProtoMessage
  | some m => .ok m
  | none => .error "unknown message: <nil>"

/-! ## Durations -/

namespace Duration

def seconds (d : Int64) : Int := d.toInt.tdiv 1000000000

def nanos (d : Int64) : Int := d.toInt.tmod 1000000000

def fields (d : Int64) : List Field :=
  optVarint 1 (ofInt (seconds d)).toUInt64 ++ optVarint 2 (ofInt (nanos d)).toUInt64

/-- `StdDurationMarshalTo`. -/
def marshal (d : Int64) : Bytes := encodeFields (fields d)

/-- Ten thousand years at most, a part below a second of the same sign, and a sum that a
`time.Duration` holds. -/
def ofProto (seconds : Int64) (nanos : Int32) : Option Int64 :=
  let s := seconds.toInt
  let n := nanos.toInt
  if -315576000000 ≤ s ∧ s ≤ 315576000000 ∧ -1000000000 < n ∧ n < 1000000000 ∧
      ¬(s < 0 ∧ 0 < n) ∧ ¬(0 < s ∧ n < 0) ∧
      -2 ^ 63 ≤ s * 1000000000 + n ∧ s * 1000000000 + n < 2 ^ 63 then
    some (ofInt (s * 1000000000 + n))
  else none

/-- `StdDurationUnmarshal`; a duration has the fields of a timestamp. -/
def unmarshal (bs : Bytes) : Option Int64 := do
  let p ← unmarshalInto Time.setField (0, 0) bs
  ofProto p.1 p.2

theorem parts (d : Int64) :
    seconds d * 1000000000 + nanos d = d.toInt ∧ -1000000000 < nanos d ∧ nanos d < 1000000000 ∧
      (0 ≤ d.toInt → 0 ≤ seconds d ∧ 0 ≤ nanos d) ∧
        (d.toInt ≤ 0 → seconds d ≤ 0 ∧ nanos d ≤ 0) := by
  have hsum := Int.mul_tdiv_add_tmod d.toInt 1000000000
  have hlt := Int.tmod_lt_of_pos d.toInt (b := 1000000000) (by norm_num)
  have hgt := Int.lt_tmod_of_pos d.toInt (b := 1000000000) (by norm_num)
  unfold seconds nanos
  refine ⟨by omega, by omega, hlt, fun h => ⟨Int.tdiv_nonneg h (by norm_num), Int.tmod_nonneg _ h⟩,
    fun h => ?_⟩
  have hneg : 0 ≤ -d.toInt := by omega
  have hs := Int.tdiv_nonneg hneg (show (0 : Int) ≤ 1000000000 by norm_num)
  have hn := Int.tmod_nonneg 1000000000 hneg
  rw [Int.neg_tdiv] at hs
  rw [Int.neg_tmod] at hn
  constructor <;> omega

theorem unmarshal_marshal (d : Int64) : unmarshal (marshal d) = some d := by
  obtain ⟨hsum, hgt, hlt, hpos, hneg⟩ := parts d
  have hle := d.toInt_lt
  have hge := d.le_toInt
  have hsign := le_total 0 d.toInt
  have hfold : (fields d).foldlM Time.setField (0, 0) =
      some (ofInt (seconds d), (ofInt (nanos d)).toInt32) := by
    simp [fields, Time.setField]
  have hs : (ofInt (seconds d)).toInt = seconds d :=
    toInt_ofInt_of_le (by omega) (by omega)
  have hn : (ofInt (nanos d)).toInt32.toInt = nanos d := by
    rw [toInt32_ofInt]
    exact Int32.toInt_ofInt_of_le (by omega) (by omega)
  simp only [unmarshal, marshal, unmarshalInto_encodeFields, hfold, bind_eq_bind,
    bind_some, ofProto, hs, hn, hsum]
  rw [if_pos (by omega), ofInt_toInt]

end Duration

/-! ## The protobuf messages -/

structure EventDataRoundState where
  height : Int64
  round : Int32
  step : Bytes
  deriving DecidableEq, Repr

namespace EventDataRoundState

def zero : EventDataRoundState := ⟨0, 0, []⟩

def fields (m : EventDataRoundState) : List Field :=
  optVarint 1 m.height.toUInt64 ++ (optVarint 2 m.round.toInt64.toUInt64 ++ optBytes 3 m.step)

def setField (m : EventDataRoundState) : Field → Option EventDataRoundState
  | ⟨1, .varint n⟩ => some { m with height := n.toInt64 }
  | ⟨2, .varint n⟩ => some { m with round := n.toInt64.toInt32 }
  | ⟨3, .bytes bs⟩ => some { m with step := bs }
  | ⟨num, _⟩ => if num ∈ [0, 1, 2, 3] then none else some m

end EventDataRoundState

structure MsgInfo where
  msg : Option ProtoMessage
  peerID : Bytes
  deriving DecidableEq, Repr

structure TimeoutInfo where
  duration : Int64
  height : Int64
  round : Int32
  step : UInt32
  deriving DecidableEq, Repr

namespace TimeoutInfo

def zero : TimeoutInfo := ⟨0, 0, 0, 0⟩

def fields (m : TimeoutInfo) : List Field :=
  [⟨1, .bytes (Duration.marshal m.duration)⟩] ++ (optVarint 2 m.height.toUInt64 ++
    (optVarint 3 m.round.toInt64.toUInt64 ++ optVarint 4 m.step.toUInt64))

def setField (m : TimeoutInfo) : Field → Option TimeoutInfo
  | ⟨1, .bytes bs⟩ => (Duration.unmarshal bs).map fun d => { m with duration := d }
  | ⟨2, .varint n⟩ => some { m with height := n.toInt64 }
  | ⟨3, .varint n⟩ => some { m with round := n.toInt64.toInt32 }
  | ⟨4, .varint n⟩ => some { m with step := n.toUInt32 }
  | ⟨num, _⟩ => if num ∈ [0, 1, 2, 3, 4] then none else some m

end TimeoutInfo

structure EndHeight where
  height : Int64
  deriving DecidableEq, Repr

namespace EndHeight

def fields (m : EndHeight) : List Field := optVarint 1 m.height.toUInt64

def setField (m : EndHeight) : Field → Option EndHeight
  | ⟨1, .varint n⟩ => some { m with height := n.toInt64 }
  | ⟨num, _⟩ => if num ∈ [0, 1] then none else some m

end EndHeight

/-- The `oneof` of the protobuf `WALMessage`, which is an `Option Sum`: nothing may be set. -/
inductive Sum where
  | eventDataRoundState (m : EventDataRoundState)
  | msgInfo (m : MsgInfo)
  | timeoutInfo (m : TimeoutInfo)
  | endHeight (m : EndHeight)
  deriving DecidableEq, Repr

/-- The protobuf `TimedWALMessage`. -/
structure TimedProto where
  time : Time
  msg : Option (Option Sum)
  deriving DecidableEq, Repr

section Marshal
variable (codec : MessageCodec)

def MsgInfo.fields (m : MsgInfo) : Option (List Field) :=
  (codec.marshal m.msg).map fun data => [⟨1, .bytes data⟩] ++ optBytes 2 m.peerID

def MsgInfo.setField (m : MsgInfo) : Field → Option MsgInfo
  | ⟨1, .bytes bs⟩ => (codec.unmarshalInto m.msg bs).map fun msg => { m with msg := msg }
  | ⟨2, .bytes bs⟩ => some { m with peerID := bs }
  | ⟨num, _⟩ => if num ∈ [0, 1, 2] then none else some m

def Sum.field : Sum → Option Field
  | .eventDataRoundState m => some ⟨1, .bytes (encodeFields m.fields)⟩
  | .msgInfo m => (m.fields codec).map fun fs => ⟨2, .bytes (encodeFields fs)⟩
  | .timeoutInfo m => some ⟨3, .bytes (encodeFields m.fields)⟩
  | .endHeight m => some ⟨4, .bytes (encodeFields m.fields)⟩

def Sum.setField (m : Option Sum) : Field → Option (Option Sum)
  | ⟨1, .bytes bs⟩ => (unmarshalInto EventDataRoundState.setField .zero bs).map fun v =>
      some (.eventDataRoundState v)
  | ⟨2, .bytes bs⟩ => (unmarshalInto (MsgInfo.setField codec) ⟨none, []⟩ bs).map fun v =>
      some (.msgInfo v)
  | ⟨3, .bytes bs⟩ => (unmarshalInto TimeoutInfo.setField .zero bs).map fun v =>
      some (.timeoutInfo v)
  | ⟨4, .bytes bs⟩ => (unmarshalInto EndHeight.setField ⟨0⟩ bs).map fun v => some (.endHeight v)
  | ⟨num, _⟩ => if num ∈ [0, 1, 2, 3, 4] then none else some m

/-- `MarshalTo` of a timed message with a set `oneof`. -/
def marshal (time : Time) (sum : Sum) : Option Bytes :=
  if time.isValid then
    (sum.field codec).map fun f =>
      encodeFields [⟨1, .bytes time.marshal⟩, ⟨2, .bytes (encodeFields [f])⟩]
  else none

def TimedProto.setField (m : TimedProto) : Field → Option TimedProto
  | ⟨1, .bytes bs⟩ => (Time.unmarshal bs).map fun t => { m with time := t }
  | ⟨2, .bytes bs⟩ => (unmarshalInto (Sum.setField codec) (m.msg.getD none) bs).map fun msg =>
      { m with msg := some msg }
  | ⟨num, _⟩ => if num ∈ [0, 1, 2] then none else some m

def unmarshal (bs : Bytes) : Option TimedProto :=
  unmarshalInto (TimedProto.setField codec) ⟨-62135596800 * 1000000000, none⟩ bs

def walToProto : WALMessage → Except String Sum
  | .eventDataRoundState height round step => .ok (.eventDataRoundState ⟨height, round, step⟩)
  | .msgInfo msg peerID => do
    let consMsg ← msgToProto msg
    .ok (.msgInfo ⟨some consMsg, peerID⟩)
  | .timeoutInfo duration height round step =>
    .ok (.timeoutInfo ⟨duration, height, round, step.toUInt32⟩)
  | .endHeight height => .ok (.endHeight ⟨height⟩)
  | .other => .error "to proto: wal message not recognized"

def walFromProto : Option (Option Sum) → Except String WALMessage
  | none => .error "nil WAL message"
  | some none => .error "from proto: wal message not recognized"
  | some (some (.eventDataRoundState m)) => .ok (.eventDataRoundState m.height m.round m.step)
  | some (some (.msgInfo m)) => do
    let um ← (unwrap m.msg).mapError fun e => s!"unwrap message: {e}"
    let walMsg ← (msgFromProto um).mapError fun e => s!"msgInfo from proto error: {e}"
    .ok (.msgInfo walMsg m.peerID)
  | some (some (.timeoutInfo m)) =>
    -- `SafeConvertUint8`
    if 255 < m.step.toNat then
      .error "denying message due to possible overflow: uint8 overflow"
    else .ok (.timeoutInfo m.duration m.height m.round m.step.toUInt8)
  | some (some (.endHeight m)) => .ok (.endHeight m.height)

end Marshal

/-! ## What is marshalled is unmarshalled -/

section RoundTrip
variable {codec : MessageCodec}

theorem EventDataRoundState.foldlM_fields (m : EventDataRoundState) :
    m.fields.foldlM setField zero = some m := by
  simp [fields, setField, zero]

theorem TimeoutInfo.foldlM_fields (m : TimeoutInfo) : m.fields.foldlM setField zero = some m := by
  simp [fields, setField, zero, Duration.unmarshal_marshal]

theorem EndHeight.foldlM_fields (m : EndHeight) : m.fields.foldlM setField ⟨0⟩ = some m := by
  simp [fields, setField]

theorem MsgInfo.foldlM_fields {m : MsgInfo} {fs : List Field} (h : m.fields codec = some fs) :
    fs.foldlM (setField codec) ⟨none, []⟩ = some m := by
  obtain ⟨msg, peerID⟩ := m
  obtain ⟨data, hdata, rfl⟩ := map_eq_some_iff.1 h
  simp [setField, codec.unmarshal_marshal _ _ hdata]

theorem Sum.setField_field {sum : Sum} {f : Field} (h : sum.field codec = some f) :
    setField codec none f = some (some sum) := by
  cases sum with
  | eventDataRoundState =>
    cases h
    simp [setField, EventDataRoundState.foldlM_fields]
  | msgInfo =>
    obtain ⟨fs, hfs, rfl⟩ := map_eq_some_iff.1 h
    simp [setField, MsgInfo.foldlM_fields hfs]
  | timeoutInfo =>
    cases h
    simp [setField, TimeoutInfo.foldlM_fields]
  | endHeight =>
    cases h
    simp [setField, EndHeight.foldlM_fields]

theorem unmarshal_of_marshal {time : Time} {sum : Sum} {data : Bytes}
    (h : marshal codec time sum = some data) : unmarshal codec data =
      some ⟨time, some (some sum)⟩ := by
  unfold marshal at h
  split_ifs at h with htime
  obtain ⟨f, hf, rfl⟩ := map_eq_some_iff.1 h
  simp [unmarshal, TimedProto.setField, Time.unmarshal_marshal htime, Sum.setField_field hf]

end RoundTrip

/-! ## Votes that a peer has -/

namespace HasVote

def zero : ProtoMessage := .hasVote 0 0 ⟨0⟩ 0

def fields (height : Int64) (round : Int32) (type : SignedMsgType) (index : Int32) : List Field :=
  optVarint 1 height.toUInt64 ++ (optVarint 2 round.toInt64.toUInt64 ++
    (optVarint 3 type.val.toInt64.toUInt64 ++ optVarint 4 index.toInt64.toUInt64))

def setField : ProtoMessage → Field → Option ProtoMessage
  | .hasVote _ round type index, ⟨1, .varint n⟩ => some (.hasVote n.toInt64 round type index)
  | .hasVote height _ type index, ⟨2, .varint n⟩ =>
    some (.hasVote height n.toInt64.toInt32 type index)
  | .hasVote height round _ index, ⟨3, .varint n⟩ =>
    some (.hasVote height round ⟨n.toInt64.toInt32⟩ index)
  | .hasVote height round type _, ⟨4, .varint n⟩ =>
    some (.hasVote height round type n.toInt64.toInt32)
  | m, ⟨num, _⟩ => if num ∈ [0, 1, 2, 3, 4] then none else some m

def setMessage (m : Option ProtoMessage) : Field → Option (Option ProtoMessage)
  | ⟨7, .bytes bs⟩ => (unmarshalInto setField zero bs).map some
  | ⟨num, _⟩ => if num ∈ [0, 7] then none else some m

/-- The messages of this one kind; one of another kind is not marshalled. -/
def codec : MessageCodec where
  marshal
    | some (.hasVote height round type index) =>
      some (encodeFields [⟨7, .bytes (encodeFields (fields height round type index))⟩])
    | some _ => none
    | none => some []
  unmarshalInto m bs := unmarshalInto setMessage m bs
  unmarshal_marshal := by
    intro p data h
    split at h
    · cases h
      simp [setMessage, fields, setField, zero]
    · cases h
    · cases h
      rfl

end HasVote

end CelestiaCore.WAL
