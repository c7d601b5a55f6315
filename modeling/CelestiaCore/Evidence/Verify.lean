import CelestiaCore.Light.Verifier
import CelestiaCore.Types.Evidence

/-!
# Verification of evidence by a full node

`evidence/verify.go`, against the headers, commits and validator sets that the node has stored.
-/
namespace CelestiaCore.EvidencePool
open Wire

def defaultTrustLevel : Fraction := ⟨1, 3⟩

/-- `DuplicateVoteEvidence` of `types/evidence.go`. -/
structure DuplicateVoteEvidence where
  voteA : Vote
  voteB : Vote
  totalVotingPower : Int
  validatorPower : Int
  timestamp : Time
  deriving DecidableEq, Repr

def DuplicateVoteEvidence.validateBasic (dve : DuplicateVoteEvidence) : Except String Unit := do
  dve.voteA.validateBasic.mapError fun e => s!"invalid VoteA: {e}"
  dve.voteB.validateBasic.mapError fun e => s!"invalid VoteB: {e}"
  reject ((compare dve.voteA.blockID.key dve.voteB.blockID.key).isGE = true)
    "duplicate votes in invalid order"

inductive Evidence where
  | duplicateVote (e : DuplicateVoteEvidence)
  | lightClientAttack (e : LightClientAttackEvidence)
  deriving DecidableEq, Repr

namespace Evidence

def height : Evidence → Int64
  | .duplicateVote e => e.voteA.height
  | .lightClientAttack e => e.commonHeight

def time : Evidence → Time
  | .duplicateVote e => e.timestamp
  | .lightClientAttack e => e.timestamp

def validateBasic (crypto : Crypto) (hs : Hashes) : Evidence → Except String Unit
  | .duplicateVote e => e.validateBasic
  | .lightClientAttack e => e.validateBasic crypto hs

end Evidence

/-- An entry of the misbehavior list that goes to the application. -/
structure Misbehavior where
  address : Bytes
  power : Int
  height : Int64
  time : Time
  totalVotingPower : Int
  deriving DecidableEq, Repr

section Verify
variable (crypto : BatchCrypto)

/-- `ABCI`; a validator without a key is dereferenced by `TM2PB`, which `verify` rules out. -/
def abci : Evidence → List Misbehavior
  | .duplicateVote e =>
    [⟨e.voteA.validatorAddress, e.validatorPower, e.voteA.height, e.timestamp, e.totalVotingPower⟩]
  | .lightClientAttack l =>
    (l.byzantineValidators.getD []).filterMap fun v? => do
      let v ← v?
      let pk ← v.pubKey
      some ⟨crypto.address pk, v.votingPower, l.commonHeight, l.timestamp, l.totalVotingPower⟩

/-- The loop of `validateABCIEvidence` over the computed list and the one in the evidence. -/
def checkAccused : List (Option Validator) → List (Option Validator) → Except VerifyFailure Unit
  | [], _ => .ok ()
  | some val :: vals, some got :: gots =>
    if got.address ≠ val.address then
      .error (.err "evidence contained an unexpected byzantine validator address")
    else if got.votingPower ≠ val.votingPower then
      .error (.err "evidence contained unexpected byzantine validator power")
    else
      match got.pubKey with
      | none => .error (.err "evidence byzantine validator has nil PubKey")
      | some pk =>
        if crypto.address pk ≠ val.address then
          .error (.err "evidence byzantine validator pubkey does not match address")
        else checkAccused vals gots
  | _, _ => .error (.panic "nil pointer dereference")

def validateABCIEvidence (ev : LightClientAttackEvidence) (commonVals : ValidatorSet)
    (trustedHeader : SignedHeader) : Except VerifyFailure Unit := do
  let valsTotal ← totalOrPanic commonVals
  if ev.totalVotingPower ≠ valsTotal then
    .error (.err ("total voting power from the evidence and our validator set does not match " ++
      s!"({ev.totalVotingPower} != {valsTotal})"))
  else
    match getByzantineValidators ev.conflictingBlock commonVals trustedHeader with
    | .error msg => .error (.panic msg)
    | .ok validators =>
      if validators = [] ∧ ev.byzantineValidators ≠ none then
        .error (.err "expected nil validators from an amnesia light client attack")
      else
        let got := ev.byzantineValidators.getD []
        if validators.length ≠ got.length then
          .error (.err (s!"expected {validators.length} byzantine validators from evidence " ++
            s!"but got {got.length}"))
        else checkAccused crypto validators got

def verifyCommitLightAllSignatures (chainID : Bytes) (vals : ValidatorSet) (blockID : BlockID)
    (height : Int64) (commit : Commit) : Except VerifyFailure Unit :=
  verifyCommitLightInternal crypto chainID vals blockID height commit true

def verifyCommitLightTrustingAllSignatures (chainID : Bytes) (vals : ValidatorSet) (commit : Commit)
    (trustLevel : Fraction) : Except VerifyFailure Unit :=
  verifyCommitLightTrustingInternal crypto chainID vals commit trustLevel true

/-- The first check: one verification step from the common header, or a correctly derived header. -/
def verifyDerivation (e : LightClientAttackEvidence) (commonHeader trustedHeader : SignedHeader)
    (commonVals : ValidatorSet) : Except VerifyFailure Unit :=
  if commonHeader.height ≠ e.conflictingBlock.height then
    verifyCommitLightTrustingAllSignatures crypto trustedHeader.header.chainID commonVals
      e.conflictingBlock.commit defaultTrustLevel
  else if conflictingHeaderIsInvalid e.conflictingBlock trustedHeader.header then
    .error (.err ("common height is the same as conflicting block height so expected the " ++
      "conflicting block to be correctly derived yet it wasn't"))
  else .ok ()

/-- The check that the conflicting block conflicts with the trusted header. -/
def verifyConflict (hs : Hashes) (e : LightClientAttackEvidence) (trustedHeader : SignedHeader) :
    Except VerifyFailure Unit :=
  if trustedHeader.height < e.conflictingBlock.height ∧
      trustedHeader.time < e.conflictingBlock.time then
    .error (.err "conflicting block doesn't violate monotonically increasing time")
  else if trustedHeader.hash hs = e.conflictingBlock.hash hs then
    .error (.err "trusted header hash matches the evidence's conflicting header hash")
  else .ok ()

/-- `VerifyLightClientAttack`, without the times that it does not use. -/
def verifyLightClientAttack (hs : Hashes) (e : LightClientAttackEvidence)
    (commonHeader trustedHeader : SignedHeader) (commonVals : ValidatorSet) :
    Except VerifyFailure Unit := do
  verifyDerivation crypto e commonHeader trustedHeader commonVals
  verifyCommitLightAllSignatures crypto trustedHeader.header.chainID
    e.conflictingBlock.validatorSet e.conflictingBlock.commit.blockID e.conflictingBlock.height
    e.conflictingBlock.commit
  let valsTotal ← totalOrPanic commonVals
  if e.totalVotingPower ≠ valsTotal then
    .error (.err ("total voting power from the evidence and our validator set does not match " ++
      s!"({e.totalVotingPower} != {valsTotal})"))
  else do
    verifyConflict hs e trustedHeader
    validateABCIEvidence crypto e commonVals trustedHeader

def verifyDuplicateVote (e : DuplicateVoteEvidence) (chainID : Bytes) (valSet : ValidatorSet) :
    Except VerifyFailure Unit :=
  match valSet.getByAddress e.voteA.validatorAddress with
  | none => .error (.err "address was not a validator")
  | some (_, val) =>
    match val.pubKey with
    | none => .error (.panic "nil pointer dereference")
    | some pubKey =>
      if e.voteA.height ≠ e.voteB.height ∨ e.voteA.round ≠ e.voteB.round ∨
          e.voteA.type ≠ e.voteB.type then .error (.err "h/r/s does not match")
      else if e.voteA.validatorAddress ≠ e.voteB.validatorAddress then
        .error (.err "validator addresses do not match")
      else if e.voteA.blockID = e.voteB.blockID then
        .error (.err "block IDs are the same - not a real duplicate vote")
      else if crypto.address pubKey ≠ e.voteA.validatorAddress then
        .error (.err "address doesn't match pubkey")
      else if val.votingPower ≠ e.validatorPower then
        .error (.err "validator power from evidence and our validator set does not match")
      else do
        let total ← totalOrPanic valSet
        if total ≠ e.totalVotingPower then
          .error (.err "total voting power from the evidence and our validator set does not match")
        else
          match voteSignBytes chainID e.voteA, voteSignBytes chainID e.voteB with
          | some a, some b =>
            if crypto.verifySignature pubKey a e.voteA.signature = false then
              .error (.err "verifying VoteA: invalid signature")
            else if crypto.verifySignature pubKey b e.voteB.signature = false then
              .error (.err "verifying VoteB: invalid signature")
            else .ok ()
          | _, _ => .error (.panic "VoteSignBytes")

end Verify

/-- What a full node has stored. -/
structure Node where
  chainID : Bytes
  lastBlockHeight : Int64
  lastBlockTime : Time
  maxAgeNumBlocks : Int64
  maxAgeDuration : Int
  storeHeight : Int64
  blockMeta : Int64 → Option Header
  blockCommit : Int64 → Option Commit
  validators : Int64 → Option ValidatorSet

def isEvidenceExpired (node : Node) (heightEv : Int64) (timeEv : Time) : Bool :=
  node.maxAgeDuration < node.lastBlockTime - timeEv ∧
    node.maxAgeNumBlocks < node.lastBlockHeight - heightEv

def getSignedHeader (node : Node) (height : Int64) : Except VerifyFailure SignedHeader :=
  match node.blockMeta height, node.blockCommit height with
  | none, _ => .error (.err s!"don't have header at height #{height}")
  | some _, none => .error (.err s!"don't have commit at height #{height}")
  | some header, some commit => .ok ⟨header, commit⟩

def loadValidators (node : Node) (height : Int64) : Except VerifyFailure ValidatorSet :=
  match node.validators height with
  | none => .error (.err s!"could not find validator set for height #{height}")
  | some vals => .ok vals

/-- The header at the height of the conflicting block, or the latest one if the node has none. -/
def getTrustedHeader (node : Node) (e : LightClientAttackEvidence) (commonHeader : SignedHeader) :
    Except VerifyFailure SignedHeader :=
  if e.commonHeight = e.conflictingBlock.height then .ok commonHeader
  else
    match getSignedHeader node e.conflictingBlock.height with
    | .ok trustedHeader => .ok trustedHeader
    | .error _ => do
      let trustedHeader ← getSignedHeader node node.storeHeight
      if trustedHeader.time < e.conflictingBlock.time then
        .error (.err "latest block time is before conflicting block time")
      else .ok trustedHeader

def verify (crypto : BatchCrypto) (hs : Hashes) (node : Node) (evidence : Evidence) :
    Except VerifyFailure Unit :=
  match node.blockMeta evidence.height with
  | none => .error (.err s!"don't have header #{evidence.height}")
  | some header =>
    if evidence.time ≠ header.time then
      .error (.err "evidence has a different time to the block it is associated with")
    else if isEvidenceExpired node evidence.height header.time then
      .error (.err s!"evidence from height {evidence.height} is too old")
    else
      match evidence with
      | .duplicateVote ev => do
        let valSet ← loadValidators node ev.voteA.height
        verifyDuplicateVote crypto ev node.chainID valSet
      | .lightClientAttack ev => do
        let commonHeader ← getSignedHeader node ev.commonHeight
        let commonVals ← loadValidators node ev.commonHeight
        let trustedHeader ← getTrustedHeader node ev commonHeader
        verifyLightClientAttack crypto hs ev commonHeader trustedHeader commonVals

end CelestiaCore.EvidencePool
