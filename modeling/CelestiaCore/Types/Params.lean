import Mathlib

/-!
# Consensus parameters

`types/params.go`: the parameters, their checks and their updates. Durations are in nanoseconds.
-/
namespace CelestiaCore

structure BlockParams where
  maxBytes : Int
  maxGas : Int
  deriving DecidableEq, Repr

structure EvidenceParams where
  maxAgeNumBlocks : Int
  maxAgeDuration : Int
  maxBytes : Int
  deriving DecidableEq, Repr

structure ConsensusParams where
  block : BlockParams
  evidence : EvidenceParams
  pubKeyTypes : List String
  versionApp : UInt64
  voteExtensionsEnableHeight : Int
  deriving DecidableEq, Repr

/-- The message with an update: what it leaves out is `none`. -/
structure ParamUpdates where
  block : Option BlockParams
  evidence : Option EvidenceParams
  pubKeyTypes : Option (List String)
  versionApp : Option UInt64
  voteExtensionsEnableHeight : Option Int
  deriving DecidableEq, Repr

namespace ConsensusParams

def maxBlockSizeBytes : Int := 128 * 1024 * 1024

/-- The keys of `ABCIPubKeyTypesToNames`. -/
def abciPubKeyTypes : List String := ["ed25519", "secp256k1"]

/-- `DefaultConsensusParams`. -/
def default : ConsensusParams :=
  ⟨⟨22020096, -1⟩, ⟨100000, 48 * 3600 * 1000000000, 1048576⟩, ["ed25519"], 0, 0⟩

def validateBasic (params : ConsensusParams) : Except String Unit :=
  if params.block.maxBytes = 0 then .error "block.MaxBytes cannot be 0"
  else if params.block.maxBytes < -1 then
    .error s!"block.MaxBytes must be -1 or greater than 0. Got {params.block.maxBytes}"
  else if maxBlockSizeBytes < params.block.maxBytes then
    .error s!"block.MaxBytes is too big. {params.block.maxBytes} > {maxBlockSizeBytes}"
  else if params.block.maxGas < -1 then
    .error s!"block.MaxGas must be greater or equal to -1. Got {params.block.maxGas}"
  else if params.evidence.maxAgeNumBlocks ≤ 0 then
    .error (s!"evidence.MaxAgeNumBlocks must be greater than 0. " ++
      s!"Got {params.evidence.maxAgeNumBlocks}")
  else if params.evidence.maxAgeDuration ≤ 0 then
    .error (s!"evidence.MaxAgeDuration must be grater than 0 if provided, " ++
      s!"Got {params.evidence.maxAgeDuration}")
  else if (if params.block.maxBytes = -1 then maxBlockSizeBytes else params.block.maxBytes) <
      params.evidence.maxBytes then
    .error (s!"evidence.MaxBytesEvidence is greater than upper bound, " ++
      s!"{params.evidence.maxBytes} > {params.block.maxBytes}")
  else if params.evidence.maxBytes < 0 then
    .error s!"evidence.MaxBytes must be non negative. Got: {params.evidence.maxBytes}"
  else if params.voteExtensionsEnableHeight < 0 then
    .error (s!"ABCI.VoteExtensionsEnableHeight cannot be negative. " ++
      s!"Got: {params.voteExtensionsEnableHeight}")
  else if params.pubKeyTypes = [] then .error "len(Validator.PubKeyTypes) must be greater than 0"
  else
    match params.pubKeyTypes.findIdx? (· ∉ abciPubKeyTypes) with
    | some i => .error s!"params.Validator.PubKeyTypes[{i}] is an unknown pubkey type"
    | none => .ok ()

/-- `ValidateUpdate`, of the height from which vote extensions are required. -/
def validateUpdate (params : ConsensusParams) (updated : ParamUpdates) (h : Int) :
    Except String Unit :=
  match updated.voteExtensionsEnableHeight with
  | none => .ok ()
  | some enableHeight =>
    if enableHeight < 0 then .error "VoteExtensionsEnableHeight must be positive"
    else if params.voteExtensionsEnableHeight ≤ 0 ∧ enableHeight = 0 then .ok ()
    else if params.voteExtensionsEnableHeight = enableHeight then .ok ()
    else if 0 < params.voteExtensionsEnableHeight ∧ enableHeight = 0 then
      if params.voteExtensionsEnableHeight ≤ h then
        .error (s!"vote extensions cannot be disabled once enabledold enable height: " ++
          s!"{params.voteExtensionsEnableHeight}, current height {h}")
      else .ok ()
    else if enableHeight ≤ h then
      .error (s!"vote extensions cannot be updated to a past or current height, enable height: " ++
        s!"{enableHeight}, current height {h}")
    else if params.voteExtensionsEnableHeight ≤ 0 then .ok ()
    else if params.voteExtensionsEnableHeight ≤ h then
      .error (s!"vote extensions cannot be modified once enabledenable height: " ++
        s!"{params.voteExtensionsEnableHeight}, current height {h}")
    else .ok ()

def update (params : ConsensusParams) (updates : ParamUpdates) : ConsensusParams where
  block := updates.block.getD params.block
  evidence := updates.evidence.getD params.evidence
  pubKeyTypes := updates.pubKeyTypes.getD params.pubKeyTypes
  versionApp := updates.versionApp.getD params.versionApp
  voteExtensionsEnableHeight := updates.voteExtensionsEnableHeight.getD
    params.voteExtensionsEnableHeight

theorem validateBasic_default : default.validateBasic = .ok () := by decide +kernel

end ConsensusParams

end CelestiaCore
