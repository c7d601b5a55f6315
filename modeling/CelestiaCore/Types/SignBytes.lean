import CelestiaCore.Types.Canonical

/-!
# Sign bytes

Canonical messages are recovered from their encodings, so a signature determines what was signed.
-/
namespace CelestiaCore
open Wire Option Int64

/-- `VoteSignBytes`, with `none` for its panics. -/
def voteSignBytes (chainID : Bytes) (vote : Vote) : Option Bytes := do
  let pb ← canonicalizeVote chainID vote
  pb.marshalDelimited

/-- `ProposalSignBytes`, with `none` for its panics. -/
def proposalSignBytes (chainID : Bytes) (p : Proposal) : Option Bytes := do
  let pb ← canonicalizeProposal chainID p
  pb.marshalDelimited

def voteExtensionSignBytes (chainID : Bytes) (vote : Vote) : Bytes :=
  (canonicalizeVoteExtension chainID vote).marshalDelimited

/-- The bytes of `COMET::RAW_BYTES::SIGN`. -/
def rawBytesSignBytesPrefix : Bytes :=
  [67, 79, 77, 69, 84, 58, 58, 82, 65, 87, 95, 66, 89, 84, 69, 83, 58, 58, 83, 73, 71, 78]

structure SignRawBytesRequest where
  chainID : Bytes
  rawBytes : Bytes
  uniqueID : Bytes
  deriving DecidableEq, Repr

namespace SignRawBytesRequest

def fields (m : SignRawBytesRequest) : List Field :=
  optBytes 1 m.chainID ++ (optBytes 2 m.rawBytes ++ optBytes 3 m.uniqueID)

def setField (m : SignRawBytesRequest) : Field → Option SignRawBytesRequest
  | ⟨1, .bytes bs⟩ => some { m with chainID := bs }
  | ⟨2, .bytes bs⟩ => some { m with rawBytes := bs }
  | ⟨3, .bytes bs⟩ => some { m with uniqueID := bs }
  | ⟨num, _⟩ => if num ∈ [0, 1, 2, 3] then none else some m

end SignRawBytesRequest

def rawBytesMessageSignBytes (chainID uniqueID rawBytes : Bytes) : Except String Bytes :=
  if chainID = [] then .error "chainID cannot be empty"
  else if uniqueID = [] then .error "uniqueID cannot be empty"
  else if rawBytes = [] then .error "rawBytes cannot be empty"
  else
    let signRequest : SignRawBytesRequest := ⟨chainID, rawBytes, uniqueID⟩
    .ok (rawBytesSignBytesPrefix ++ delimit (encodeFields signRequest.fields))

namespace Time

theorem unmarshal_marshal {t : Time} (h : t.isValid = true) : unmarshal t.marshal = some t := by
  simp only [isValid, decide_eq_true_eq] at h
  have hn : 0 ≤ t.nanos ∧ t.nanos < 1000000000 := by unfold nanos; omega
  have hfold : t.fields.foldlM setField (0, 0) =
      some (ofInt t.seconds, (ofInt t.nanos).toInt32) := by
    simp [fields, setField]
  have hs : (ofInt t.seconds).toInt = t.seconds :=
    toInt_ofInt_of_le (by omega) (by omega)
  have hns : (ofInt t.nanos).toInt32.toInt = t.nanos := by
    rw [toInt32_ofInt]
    exact Int32.toInt_ofInt_of_le (by omega) (by omega)
  have ht : t.seconds * 1000000000 + t.nanos = t := by unfold seconds nanos; omega
  simp only [unmarshal, marshal, unmarshalInto_encodeFields, hfold, bind_eq_bind,
    bind_some, ofTimestamp, hs, hns, ht]
  rw [if_pos ⟨h.1, h.2, hn⟩]

end Time

theorem BlockID.unmarshalInto_marshal (b : BlockID) :
    BlockID.unmarshalInto .zero b.marshal = some b := by
  simp only [unmarshalInto, marshal, unmarshalInto_encodeFields, fields]
  simp [setField, zero, PartSetHeader.unmarshalInto_marshal]

theorem SignedMsgType.fields_of_ne {t : SignedMsgType} (h : t.val.toInt64.toUInt64 ≠ 0) :
    t.fields = [⟨1, .varint t.val.toInt64.toUInt64⟩] := by
  simp [fields, optVarint, h]

variable {bs : Bytes}

namespace CanonicalVote

theorem foldlM_fields (m : CanonicalVote) (ht : m.timestamp.isValid = true) :
    m.fields.foldlM setField zero = some m := by
  obtain ⟨type, height, round, blockID, timestamp, chainID⟩ := m
  simp only [fields, SignedMsgType.fields]
  cases blockID with
  | none => simp [optMessage, setField, zero, Time.unmarshal_marshal ht]
  | some b =>
    simp [optMessage, setField, zero, Time.unmarshal_marshal ht, BlockID.unmarshalInto_marshal]

theorem unmarshalDelimited_marshalDelimited {m : CanonicalVote}
    (h : m.marshalDelimited = some bs) : unmarshalDelimited bs = some m := by
  obtain ⟨ht, ⟨⟩⟩ := ite_none_right_eq_some.1 h
  simp [unmarshalDelimited, foldlM_fields m ht]

theorem marshalDelimited_typed {m : CanonicalVote} (t : SignedMsgType)
    (h : m.marshalDelimited = some bs) (ht : m.type = t) (hne : t.val.toInt64.toUInt64 ≠ 0) :
    ∃ fs, bs = delimit (encodeFields (⟨1, .varint t.val.toInt64.toUInt64⟩ :: fs)) := by
  obtain ⟨-, ⟨⟩⟩ := ite_none_right_eq_some.1 h
  subst ht
  rw [fields, SignedMsgType.fields_of_ne hne]
  exact ⟨_, rfl⟩

end CanonicalVote

namespace CanonicalProposal

theorem foldlM_fields (m : CanonicalProposal) (ht : m.timestamp.isValid = true) :
    m.fields.foldlM setField zero = some m := by
  obtain ⟨type, height, round, polRound, blockID, timestamp, chainID⟩ := m
  simp only [fields, SignedMsgType.fields]
  cases blockID with
  | none => simp [optMessage, setField, zero, Time.unmarshal_marshal ht]
  | some b =>
    simp [optMessage, setField, zero, Time.unmarshal_marshal ht, BlockID.unmarshalInto_marshal]

variable {m : CanonicalProposal}

theorem unmarshalDelimited_marshalDelimited
    (h : m.marshalDelimited = some bs) : unmarshalDelimited bs = some m := by
  obtain ⟨ht, ⟨⟩⟩ := ite_none_right_eq_some.1 h
  simp [unmarshalDelimited, foldlM_fields m ht]

theorem marshalDelimited_typed (t : SignedMsgType)
    (h : m.marshalDelimited = some bs) (ht : m.type = t) (hne : t.val.toInt64.toUInt64 ≠ 0) :
    ∃ fs, bs = delimit (encodeFields (⟨1, .varint t.val.toInt64.toUInt64⟩ :: fs)) := by
  obtain ⟨-, ⟨⟩⟩ := ite_none_right_eq_some.1 h
  subst ht
  rw [fields, SignedMsgType.fields_of_ne hne]
  exact ⟨_, rfl⟩

end CanonicalProposal

namespace CanonicalVoteExtension

theorem foldlM_fields (m : CanonicalVoteExtension) : m.fields.foldlM setField zero = some m := by
  simp [fields, setField, zero]

end CanonicalVoteExtension

theorem SignRawBytesRequest.foldlM_fields (m : SignRawBytesRequest) :
    m.fields.foldlM setField ⟨[], [], []⟩ = some m := by
  simp [fields, setField]

end CelestiaCore
