import CelestiaCore.Types.BlockID

/-!
# Votes, proposals and their canonical encodings

The messages of `types/vote.go` and `types/proposal.go` and the canonical ones of
`types/canonical.go`. -/
namespace CelestiaCore
open Wire

/-- `SignedMsgType` is an open enumeration: every `int32` can arrive on the wire. -/
structure SignedMsgType where
  val : Int32
  deriving DecidableEq, Repr, Inhabited

def SignedMsgType.prevote : SignedMsgType := ⟨1⟩
def SignedMsgType.precommit : SignedMsgType := ⟨2⟩
def SignedMsgType.proposal : SignedMsgType := ⟨32⟩

def SignedMsgType.isVoteTypeValid (t : SignedMsgType) : Bool :=
  t = .prevote ∨ t = .precommit

abbrev Time := Int

namespace Time

def seconds (t : Time) : Int := t / 1000000000

def nanos (t : Time) : Int := t % 1000000000

/-- Years 1 to 9999, the instants a proto `Timestamp` can hold. -/
def isValid (t : Time) : Bool :=
  -62135596800 ≤ t.seconds ∧ t.seconds < 253402300800

def fields (t : Time) : List Field :=
  optVarint 1 (Int64.ofInt t.seconds).toUInt64 ++ optVarint 2 (Int64.ofInt t.nanos).toUInt64

def marshal (t : Time) : Bytes :=
  encodeFields t.fields

def setField (p : Int64 × Int32) : Field → Option (Int64 × Int32)
  | ⟨1, .varint n⟩ => some (n.toInt64, p.2)
  | ⟨2, .varint n⟩ => some (p.1, n.toInt64.toInt32)
  | ⟨num, _⟩ => if num ∈ [0, 1, 2] then none else some p

def ofTimestamp (seconds : Int64) (nanos : Int32) : Option Time :=
  if -62135596800 ≤ seconds.toInt ∧ seconds.toInt < 253402300800 ∧
      0 ≤ nanos.toInt ∧ nanos.toInt < 1000000000 then
    some (seconds.toInt * 1000000000 + nanos.toInt)
  else none

/-- `StdTimeUnmarshal`. -/
def unmarshal (bs : Bytes) : Option Time := do
  let p ← unmarshalInto setField (0, 0) bs
  ofTimestamp p.1 p.2

end Time

/-- A vote, in the fields that `types.Vote` and `cmtproto.Vote` share. -/
structure Vote where
  type : SignedMsgType
  height : Int64
  round : Int32
  blockID : BlockID
  timestamp : Time
  validatorAddress : Bytes
  validatorIndex : Int32
  signature : Bytes
  extension : Bytes
  extensionSignature : Bytes
  deriving DecidableEq, Repr, Inhabited

structure Proposal where
  type : SignedMsgType
  height : Int64
  round : Int32
  polRound : Int32
  blockID : BlockID
  timestamp : Time
  signature : Bytes
  deriving DecidableEq, Repr, Inhabited

structure CanonicalVote where
  type : SignedMsgType
  height : Int64
  round : Int64
  blockID : Option BlockID
  timestamp : Time
  chainID : Bytes
  deriving DecidableEq, Repr

structure CanonicalProposal where
  type : SignedMsgType
  height : Int64
  round : Int64
  polRound : Int64
  blockID : Option BlockID
  timestamp : Time
  chainID : Bytes
  deriving DecidableEq, Repr

structure CanonicalVoteExtension where
  extension : Bytes
  height : Int64
  round : Int64
  chainID : Bytes
  deriving DecidableEq, Repr

/-- `CanonicalizeBlockID`, with `none` for its panic on an invalid identifier. -/
def canonicalizeBlockID (b : BlockID) : Option (Option BlockID) :=
  match b.validateBasic with
  | .error _ => none
  | .ok () => some (if b.isZero then none else some b)

def canonicalizeVote (chainID : Bytes) (vote : Vote) : Option CanonicalVote := do
  let blockID ← canonicalizeBlockID vote.blockID
  some ⟨vote.type, vote.height, vote.round.toInt64, blockID, vote.timestamp, chainID⟩

def canonicalizeProposal (chainID : Bytes) (p : Proposal) : Option CanonicalProposal := do
  let blockID ← canonicalizeBlockID p.blockID
  some ⟨.proposal, p.height, p.round.toInt64, p.polRound.toInt64, blockID, p.timestamp, chainID⟩

def canonicalizeVoteExtension (chainID : Bytes) (vote : Vote) : CanonicalVoteExtension :=
  ⟨vote.extension, vote.height, vote.round.toInt64, chainID⟩

namespace BlockID

def fields (b : BlockID) : List Field :=
  optBytes 1 b.hash ++ [⟨2, .bytes b.partSetHeader.marshal⟩]

def marshal (b : BlockID) : Bytes :=
  encodeFields b.fields

def setField (b : BlockID) : Field → Option BlockID
  | ⟨1, .bytes h⟩ => some { b with hash := h }
  | ⟨2, .bytes bs⟩ => (b.partSetHeader.unmarshalInto bs).map fun psh =>
      { b with partSetHeader := psh }
  | ⟨num, _⟩ => if num ∈ [0, 1, 2] then none else some b

def unmarshalInto (b : BlockID) (bs : Bytes) : Option BlockID :=
  Wire.unmarshalInto setField b bs

end BlockID

def SignedMsgType.fields (t : SignedMsgType) : List Field :=
  optVarint 1 t.val.toInt64.toUInt64

namespace CanonicalVote

def zero : CanonicalVote := ⟨⟨0⟩, 0, 0, none, -62135596800 * 1000000000, []⟩

def fields (m : CanonicalVote) : List Field :=
  m.type.fields ++ (optFixed64 2 m.height.toUInt64 ++ (optFixed64 3 m.round.toUInt64 ++
    (optMessage 4 (m.blockID.map BlockID.marshal) ++
      ([⟨5, .bytes m.timestamp.marshal⟩] ++ optBytes 6 m.chainID))))

/-- `MarshalDelimited`, which fails on an instant outside the range of a proto timestamp. -/
def marshalDelimited (m : CanonicalVote) : Option Bytes :=
  if m.timestamp.isValid then some (delimit (encodeFields m.fields)) else none

def setField (m : CanonicalVote) : Field → Option CanonicalVote
  | ⟨1, .varint n⟩ => some { m with type := ⟨n.toInt64.toInt32⟩ }
  | ⟨2, .fixed64 n⟩ => some { m with height := n.toInt64 }
  | ⟨3, .fixed64 n⟩ => some { m with round := n.toInt64 }
  | ⟨4, .bytes bs⟩ => ((m.blockID.getD .zero).unmarshalInto bs).map fun b =>
      { m with blockID := some b }
  | ⟨5, .bytes bs⟩ => (Time.unmarshal bs).map fun t => { m with timestamp := t }
  | ⟨6, .bytes bs⟩ => some { m with chainID := bs }
  | ⟨num, _⟩ => if num ∈ [0, 1, 2, 3, 4, 5, 6] then none else some m

def unmarshalDelimited (bs : Bytes) : Option CanonicalVote := do
  let (body, _) ← undelimit bs
  unmarshalInto setField zero body

end CanonicalVote

namespace CanonicalProposal

def zero : CanonicalProposal := ⟨⟨0⟩, 0, 0, 0, none, -62135596800 * 1000000000, []⟩

def fields (m : CanonicalProposal) : List Field :=
  m.type.fields ++ (optFixed64 2 m.height.toUInt64 ++ (optFixed64 3 m.round.toUInt64 ++
    (optVarint 4 m.polRound.toUInt64 ++ (optMessage 5 (m.blockID.map BlockID.marshal) ++
      ([⟨6, .bytes m.timestamp.marshal⟩] ++ optBytes 7 m.chainID)))))

def marshalDelimited (m : CanonicalProposal) : Option Bytes :=
  if m.timestamp.isValid then some (delimit (encodeFields m.fields)) else none

def setField (m : CanonicalProposal) : Field → Option CanonicalProposal
  | ⟨1, .varint n⟩ => some { m with type := ⟨n.toInt64.toInt32⟩ }
  | ⟨2, .fixed64 n⟩ => some { m with height := n.toInt64 }
  | ⟨3, .fixed64 n⟩ => some { m with round := n.toInt64 }
  | ⟨4, .varint n⟩ => some { m with polRound := n.toInt64 }
  | ⟨5, .bytes bs⟩ => ((m.blockID.getD .zero).unmarshalInto bs).map fun b =>
      { m with blockID := some b }
  | ⟨6, .bytes bs⟩ => (Time.unmarshal bs).map fun t => { m with timestamp := t }
  | ⟨7, .bytes bs⟩ => some { m with chainID := bs }
  | ⟨num, _⟩ => if num ∈ [0, 1, 2, 3, 4, 5, 6, 7] then none else some m

def unmarshalDelimited (bs : Bytes) : Option CanonicalProposal := do
  let (body, _) ← undelimit bs
  unmarshalInto setField zero body

end CanonicalProposal

namespace CanonicalVoteExtension

def zero : CanonicalVoteExtension := ⟨[], 0, 0, []⟩

def fields (m : CanonicalVoteExtension) : List Field :=
  optBytes 1 m.extension ++ (optFixed64 2 m.height.toUInt64 ++
    (optFixed64 3 m.round.toUInt64 ++ optBytes 4 m.chainID))

def marshalDelimited (m : CanonicalVoteExtension) : Bytes :=
  delimit (encodeFields m.fields)

def setField (m : CanonicalVoteExtension) : Field → Option CanonicalVoteExtension
  | ⟨1, .bytes bs⟩ => some { m with extension := bs }
  | ⟨2, .fixed64 n⟩ => some { m with height := n.toInt64 }
  | ⟨3, .fixed64 n⟩ => some { m with round := n.toInt64 }
  | ⟨4, .bytes bs⟩ => some { m with chainID := bs }
  | ⟨num, _⟩ => if num ∈ [0, 1, 2, 3, 4] then none else some m

def unmarshalDelimited (bs : Bytes) : Option CanonicalVoteExtension := do
  let (body, _) ← undelimit bs
  unmarshalInto setField zero body

end CanonicalVoteExtension

end CelestiaCore
