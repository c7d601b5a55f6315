import CelestiaCore.Types.PartSet
import CelestiaCore.Types.VoteSet

/-!
# Consensus messages

The messages of `consensus/reactor.go` with their `ValidateBasic`, and `MsgToProto` and
`MsgFromProto` of `consensus/msgs.go`. -/
namespace CelestiaCore
open Wire

def Proposal.validateBasic (p : Proposal) : Except String Unit := do
  reject (p.type ≠ .proposal) "invalid Type"
  reject (p.height < 0) "negative Height"
  reject (p.round < 0) "negative Round"
  reject (p.polRound < -1) "negative POLRound (exception: -1)"
  p.blockID.validateBasic.mapError fun e => s!"wrong BlockID: {e}"
  reject (p.blockID.isComplete = false) "expected a complete, non-empty BlockID"
  reject (p.signature.length = 0) "signature is missing"
  reject (maxSignatureSize < p.signature.length)
    s!"signature is too big (max: {maxSignatureSize})"

theorem blockIDFromProto_of_validateBasic {b : BlockID} (h : b.validateBasic = .ok ()) :
    blockIDFromProto b = .ok () := by
  have hheader : b.partSetHeader.validateBasic = .ok () := by
    unfold BlockID.validateBasic at h
    split at h
    · cases h
    · split at h
      · cases h
      · assumption
  simp [blockIDFromProto, hheader, h]

namespace Consensus

/-- `libs/bits.BitArray`; its protobuf message has the same fields. -/
structure BitArray where
  bits : Int64
  elems : List UInt64
  deriving DecidableEq, Repr

namespace BitArray

def size (bA : Option BitArray) : Int := (bA.map (·.bits.toInt)).getD 0

def validateBasic : Option BitArray → Except String Unit
  | none => .ok ()
  | some bA => do
    reject (bA.bits < 0) s!"negative number of bits {bA.bits}"
    reject ((bA.bits.toInt + 63) / 64 ≠ bA.elems.length)
      (s!"mismatch between specified number of bits {bA.bits}, and number of elements " ++
        s!"{bA.elems.length}, expected {(bA.bits.toInt + 63) / 64} elements")

def toProto (bA : Option BitArray) : Option BitArray := bA.filter (·.elems ≠ [])

/-- What `FromProto` makes of a new bit array, which stays as it is for a nil message. -/
def fromProto (pb : Option BitArray) : BitArray := pb.getD ⟨0, []⟩

end BitArray

/-- A message. Bit arrays and parts are pointers. -/
inductive Message where
  | newRoundStep (height : Int64) (round : Int32) (step : UInt8) (secondsSinceStartTime : Int64)
    (lastCommitRound : Int32)
  | newValidBlock (height : Int64) (round : Int32) (blockPartSetHeader : PartSetHeader)
    (blockParts : Option BitArray) (isCommit : Bool)
  | proposal (proposal : Proposal)
  | proposalPOL (height : Int64) (proposalPOLRound : Int32) (proposalPOL : Option BitArray)
  | blockPart (height : Int64) (round : Int32) (part : Option Part)
  | vote (vote : Vote)
  | hasVote (height : Int64) (round : Int32) (type : SignedMsgType) (index : Int32)
  | voteSetMaj23 (height : Int64) (round : Int32) (type : SignedMsgType) (blockID : BlockID)
  | voteSetBits (height : Int64) (round : Int32) (type : SignedMsgType) (blockID : BlockID)
    (votes : Option BitArray)
  deriving DecidableEq, Repr

namespace Message

def validateBasic : Message → Except String Unit
  | .newRoundStep height round step _ lastCommitRound => do
    reject (height < 0) "negative Height"
    reject (round < 0) "negative Round"
    reject (¬(1 ≤ step ∧ step ≤ 8)) "invalid Step"
    reject (lastCommitRound < -1) "invalid LastCommitRound (cannot be < -1)"
  | .newValidBlock height round header blockParts _ => do
    reject (height < 0) "negative Height"
    reject (round < 0) "negative Round"
    header.validateBasic.mapError fun e => s!"wrong BlockPartSetHeader: {e}"
    (BitArray.validateBasic blockParts).mapError fun e => s!"validating BlockParts: {e}"
    reject (BitArray.size blockParts = 0) "empty blockParts"
    reject (BitArray.size blockParts ≠ header.total.toNat)
      (s!"blockParts bit array size {BitArray.size blockParts} not equal to " ++
        s!"BlockPartSetHeader.Total {header.total}")
    reject (maxBlockPartsCount < BitArray.size blockParts) (s!"blockParts bit array is too big: " ++
      s!"{BitArray.size blockParts}, max: {maxBlockPartsCount}")
  | .proposal p => p.validateBasic
  | .proposalPOL height round pol => do
    reject (height < 0) "negative Height"
    reject (round < 0) "negative ProposalPOLRound"
    (BitArray.validateBasic pol).mapError fun e => s!"validating ProposalPOL: {e}"
    reject (BitArray.size pol = 0) "empty ProposalPOL bit array"
    reject (maxVotesCount < BitArray.size pol)
      s!"proposalPOL bit array is too big: {BitArray.size pol}, max: {maxVotesCount}"
  | .blockPart height round part => do
    reject (height < 0) "negative Height"
    reject (round < 0) "negative Round"
    match part with
    | none => .error "wrong Part: nil part"
    | some part => part.validateBasic.mapError fun _ => "wrong Part"
  | .vote v => v.validateBasic
  | .hasVote height round type index => do
    reject (height < 0) "negative Height"
    reject (round < 0) "negative Round"
    reject (type.isVoteTypeValid = false) "invalid Type"
    reject (index < 0) "negative Index"
  | .voteSetMaj23 height round type blockID => do
    reject (height < 0) "negative Height"
    reject (round < 0) "negative Round"
    reject (type.isVoteTypeValid = false) "invalid Type"
    blockID.validateBasic.mapError fun e => s!"wrong BlockID: {e}"
  -- the round is not checked
  | .voteSetBits height _ type blockID votes => do
    reject (height < 0) "negative Height"
    reject (type.isVoteTypeValid = false) "invalid Type"
    blockID.validateBasic.mapError fun e => s!"wrong BlockID: {e}"
    (BitArray.validateBasic votes).mapError fun e => s!"validating Votes: {e}"
    reject (maxVotesCount < BitArray.size votes)
      s!"votes bit array is too big: {BitArray.size votes}, max: {maxVotesCount}"

def isValid (m : Message) : Bool :=
  match m.validateBasic with
  | .ok () => true
  | .error _ => false

/-- What holds of every message a node handles, of a peer or of its own. -/
def WellFormed : Message → Prop
  | .proposal p => p.blockID.partSetHeader.Complete
  | .vote v => v.blockID.WellFormed ∧ 0 ≤ v.round.toInt
  | _ => True

end Message

theorem wellFormed_of_validateBasic {v : Vote} (h : v.validateBasic = .ok ()) :
    v.blockID.WellFormed ∧ 0 ≤ v.round.toInt := by
  simp only [Vote.validateBasic, check_bind_eq_ok, reject_eq_ok] at h
  obtain ⟨-, -, hround, -, hid, -⟩ := h
  refine ⟨?_, ?_⟩
  · by_cases hzero : v.blockID.isZero = true
    · exact Or.inl ((BlockID.isZero_iff _).1 hzero)
    · apply BlockID.wellFormed_of_isComplete
      by_contra hcomplete
      exact hid ⟨by simpa using hzero, by simpa using hcomplete⟩
  · simpa [Int32.lt_iff_toInt_lt] using hround

theorem complete_of_validateBasic {p : Proposal} (h : p.validateBasic = .ok ()) :
    p.blockID.partSetHeader.Complete := by
  simp only [Proposal.validateBasic, check_bind_eq_ok, reject_eq_ok] at h
  obtain ⟨-, -, -, -, -, hcomplete, -⟩ := h
  have hid : p.blockID.isComplete = true := by simpa using hcomplete
  simp only [BlockID.isComplete, Bool.decide_and, Bool.and_eq_true, decide_eq_true_eq] at hid
  refine ⟨?_, hid.2.2⟩
  intro h0
  simp [h0] at hid

theorem Message.wellFormed_of_isValid {m : Message} (h : m.isValid = true) : m.WellFormed := by
  unfold isValid at h
  split at h
  · next hok =>
    cases m with
    | proposal => exact complete_of_validateBasic hok
    | vote => exact wellFormed_of_validateBasic hok
    | _ => trivial
  · cases h

/-! ## Conversion -/

/-- The protobuf messages of `proto/tendermint/consensus`. -/
inductive ProtoMessage where
  | newRoundStep (height : Int64) (round : Int32) (step : UInt32) (secondsSinceStartTime : Int64)
    (lastCommitRound : Int32)
  | newValidBlock (height : Int64) (round : Int32) (blockPartSetHeader : PartSetHeader)
    (blockParts : Option BitArray) (isCommit : Bool)
  | proposal (proposal : Proposal)
  | proposalPOL (height : Int64) (proposalPolRound : Int32) (proposalPol : BitArray)
  | blockPart (height : Int64) (round : Int32) (part : Part)
  | vote (vote : Option Vote)
  | hasVote (height : Int64) (round : Int32) (type : SignedMsgType) (index : Int32)
  | voteSetMaj23 (height : Int64) (round : Int32) (type : SignedMsgType) (blockID : BlockID)
  | voteSetBits (height : Int64) (round : Int32) (type : SignedMsgType) (blockID : BlockID)
    (votes : BitArray)
  deriving DecidableEq, Repr

/-- `MsgToProto`. A proposal POL without bits is a nil dereference. -/
def msgToProto : Message → Except String ProtoMessage
  | .newRoundStep height round step seconds last =>
    .ok (.newRoundStep height round step.toUInt32 seconds last)
  | .newValidBlock height round header blockParts isCommit =>
    .ok (.newValidBlock height round header (BitArray.toProto blockParts) isCommit)
  | .proposal p => .ok (.proposal p)
  | .proposalPOL height round pol =>
    match BitArray.toProto pol with
    | none => .error "nil pointer dereference"
    | some pbBits => .ok (.proposalPOL height round pbBits)
  | .blockPart _ _ none => .error "msg to proto error: nil part"
  | .blockPart height round (some part) => .ok (.blockPart height round part)
  | .vote v => .ok (.vote (some v))
  | .hasVote height round type index => .ok (.hasVote height round type index)
  | .voteSetMaj23 height round type blockID => .ok (.voteSetMaj23 height round type blockID)
  | .voteSetBits height round type blockID votes =>
    .ok (.voteSetBits height round type blockID ((BitArray.toProto votes).getD ⟨0, []⟩))

/-- The checks of `PartFromProto`. -/
def partFromProto (part : Part) : Except String Unit := do
  reject (part.proof.leafHash = [] ∧ part.proof.aunts = []) "nil proof"
  part.proof.validateBasic
  part.validateBasic.mapError fun _ => "invalid part"

/-- The conversion in `MsgFromProto`, before the message is validated. -/
def convert : ProtoMessage → Except String Message
  | .newRoundStep height round step seconds last => do
    -- `SafeConvertUint8`
    reject (255 < step.toNat) "denying message due to possible overflow: uint8 overflow"
    .ok (.newRoundStep height round step.toUInt8 seconds last)
  | .newValidBlock height round header blockParts isCommit => do
    header.validateBasic.mapError fun e => s!"parts to proto error: {e}"
    .ok (.newValidBlock height round header (some (BitArray.fromProto blockParts)) isCommit)
  | .proposal p => do
    (do blockIDFromProto p.blockID; p.validateBasic).mapError fun e =>
      s!"proposal msg to proto error: {e}"
    .ok (.proposal p)
  | .proposalPOL height round pol => .ok (.proposalPOL height round (some pol))
  | .blockPart height round part => do
    (partFromProto part).mapError fun e => s!"blockpart msg to proto error: {e}"
    .ok (.blockPart height round (some part))
  | .vote none => .error "vote msg to proto error: nil vote"
  | .vote (some v) => do
    (blockIDFromProto v.blockID).mapError fun e => s!"vote msg to proto error: {e}"
    .ok (.vote v)
  | .hasVote height round type index => .ok (.hasVote height round type index)
  | .voteSetMaj23 height round type blockID => do
    (blockIDFromProto blockID).mapError fun e => s!"voteSetMaj23 msg to proto error: {e}"
    .ok (.voteSetMaj23 height round type blockID)
  | .voteSetBits height round type blockID votes => do
    (blockIDFromProto blockID).mapError fun e => s!"voteSetBits msg to proto error: {e}"
    .ok (.voteSetBits height round type blockID (some votes))

def msgFromProto (p : ProtoMessage) : Except String Message := do
  let pb ← convert p
  pb.validateBasic
  .ok pb

theorem partFromProto_of_validateBasic {part : Part} (h : part.validateBasic = .ok ()) :
    partFromProto part = .ok () := by
  have hproof : part.proof.validateBasic = .ok () := by
    unfold Part.validateBasic Part.validateBasicWithPartSize at h
    split_ifs at h
    split at h
    · cases h
    · assumption
  have hleaf : part.proof.leafHash ≠ [] := by
    unfold Merkle.Proof.validateBasic at hproof
    split_ifs at hproof with _ _ hleaf
    intro hnil
    simp [hnil, hashSize] at hleaf
  simp [partFromProto, hleaf, hproof, h, reject, Except.mapError]

/-- A valid bit array without words has no bits. -/
theorem BitArray.bits_eq_zero {b : BitArray} (h : validateBasic (some b) = .ok ())
    (hnil : b.elems = []) : b.bits = 0 := by
  simp only [validateBasic, check_bind_eq_ok, reject_eq_ok, Int64.lt_iff_toInt_lt, hnil,
    List.length_nil] at h
  apply Int64.toInt_inj.1
  have hzero : (0 : Int64).toInt = 0 := rfl
  omega

theorem BitArray.toProto_of_size {bA : Option BitArray} (h : validateBasic bA = .ok ())
    (hsize : size bA ≠ 0) : ∃ b, bA = some b ∧ toProto bA = some b := by
  cases bA with
  | none => exact absurd rfl hsize
  | some b =>
    refine ⟨b, rfl, Option.filter_eq_some_iff.2 ⟨rfl, decide_eq_true fun hnil => hsize ?_⟩⟩
    rw [size, Option.map_some, bits_eq_zero h hnil]
    rfl

theorem convert_msgToProto {m : Message} {pb : ProtoMessage} (h : msgToProto m = .ok pb)
    (hvalid : m.validateBasic = .ok ()) (hvotes : ∀ h r t b, m ≠ .voteSetBits h r t b none) :
    convert pb = .ok m := by
  cases m with
  | newRoundStep _ _ step =>
    cases h
    have hstep : step.toNat ≤ 255 := Nat.le_of_lt_succ step.toNat_lt
    simp [convert, reject, hstep]
  | newValidBlock =>
    cases h
    simp only [Message.validateBasic, check_bind_eq_ok, mapError_eq_ok, reject_eq_ok] at hvalid
    obtain ⟨-, -, hheader, hbits, hsize, -⟩ := hvalid
    obtain ⟨b, rfl, hproto⟩ := BitArray.toProto_of_size hbits hsize
    simp [convert, hheader, hproto, BitArray.fromProto, mapError_eq_ok]
  | proposal p =>
    cases h
    have hp : p.validateBasic = .ok () := hvalid
    have hid : p.blockID.validateBasic = .ok () := by
      simp only [Proposal.validateBasic, check_bind_eq_ok, mapError_eq_ok] at hp
      exact hp.2.2.2.2.1
    simp [convert, mapError_eq_ok, blockIDFromProto_of_validateBasic hid, hp]
  | proposalPOL =>
    simp only [Message.validateBasic, check_bind_eq_ok, mapError_eq_ok, reject_eq_ok] at hvalid
    obtain ⟨-, -, hbits, hsize, -⟩ := hvalid
    obtain ⟨b, rfl, hproto⟩ := BitArray.toProto_of_size hbits hsize
    simp only [msgToProto, hproto] at h
    cases h
    rfl
  | blockPart _ _ part =>
    cases part with
    | none => cases h
    | some part =>
      cases h
      simp only [Message.validateBasic, check_bind_eq_ok, mapError_eq_ok] at hvalid
      simp [convert, mapError_eq_ok, partFromProto_of_validateBasic hvalid.2.2]
  | vote v =>
    cases h
    have hv : v.validateBasic = .ok () := hvalid
    simp only [Vote.validateBasic, check_bind_eq_ok, mapError_eq_ok] at hv
    simp [convert, mapError_eq_ok, blockIDFromProto_of_validateBasic hv.2.2.2.1]
  | hasVote =>
    cases h
    rfl
  | voteSetMaj23 =>
    cases h
    simp only [Message.validateBasic, check_bind_eq_ok, mapError_eq_ok] at hvalid
    simp [convert, mapError_eq_ok, blockIDFromProto_of_validateBasic hvalid.2.2.2]
  | voteSetBits _ _ _ _ votes =>
    cases h
    simp only [Message.validateBasic, check_bind_eq_ok, mapError_eq_ok, reject_eq_ok] at hvalid
    obtain ⟨-, -, hid, hbits, -⟩ := hvalid
    cases votes with
    | none => exact absurd rfl (hvotes _ _ _ _)
    | some b =>
      have hproto : (BitArray.toProto (some b)).getD ⟨0, []⟩ = b := by
        obtain ⟨bits, elems⟩ := b
        by_cases hnil : elems = []
        · obtain rfl : bits = 0 := BitArray.bits_eq_zero hbits hnil
          simp [BitArray.toProto, Option.filter, hnil]
        · simp [BitArray.toProto, Option.filter, hnil]
      simp [convert, mapError_eq_ok, blockIDFromProto_of_validateBasic hid, hproto]

/-- A message comes back from its protobuf message exactly if it is valid, but that a nil bit array
of votes comes back as an empty one. -/
theorem msgFromProto_eq_self_iff {m : Message} {pb : ProtoMessage} (h : msgToProto m = .ok pb) :
    msgFromProto pb = .ok m ↔
      m.validateBasic = .ok () ∧ ∀ h r t b, m ≠ .voteSetBits h r t b none := by
  constructor
  · intro hback
    obtain ⟨m', hconvert, hrest⟩ := except_bind_eq_ok.1 hback
    obtain ⟨hvalid, ⟨⟩⟩ := check_bind_eq_ok.1 hrest
    refine ⟨hvalid, ?_⟩
    rintro h r t b rfl
    cases h
    obtain ⟨-, ⟨⟩⟩ := check_bind_eq_ok.1 hconvert
  · rintro ⟨hvalid, hvotes⟩
    simp [msgFromProto, convert_msgToProto h hvalid hvotes, hvalid]

end Consensus

end CelestiaCore
