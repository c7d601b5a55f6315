import CelestiaCore.Evidence.Verify
import CelestiaCore.State.State
import CelestiaCore.Store.BlockStore

/-!
# Validation of blocks

`validateBlock` of `state/validation.go`, `ValidateBasic` of a block and `MedianTime`. Hashes of the
parts of a block and the size of its evidence are parameters.
-/
namespace CelestiaCore.SM
open Wire

/-- A block with its evidence. The hash of the data may have been given when it was built. -/
structure FullBlock extends BlockStore.Block where
  evidence : List EvidencePool.Evidence
  cachedDataHash : Option Bytes
  deriving DecidableEq, Repr

/-- `Hash` of commits, transactions, evidence and parameters, and `ByteSize` of evidence. -/
structure BlockHashes extends Hashes where
  commit : Commit → Bytes
  txs : List Bytes → Bytes
  evidence : List EvidencePool.Evidence → Bytes
  params : ConsensusParams → Bytes
  evidenceSize : List EvidencePool.Evidence → Int

/-- `Data.Hash`. -/
def FullBlock.dataHash (hs : BlockHashes) (block : FullBlock) : Bytes :=
  block.cachedDataHash.getD (hs.txs block.txs)

def FullBlock.validateBasic (crypto : Crypto) (hs : BlockHashes) (block : FullBlock) :
    Except String Unit := do
  block.header.validateBasic.mapError fun e => s!"invalid header: {e}"
  block.lastCommit.validateBasic.mapError fun e => s!"wrong LastCommit: {e}"
  reject (block.header.lastCommitHash ≠ hs.commit block.lastCommit) "wrong Header.LastCommitHash"
  reject (block.header.dataHash ≠ block.dataHash hs) "wrong Header.DataHash"
  block.evidence.zipIdx.forM fun p =>
    (p.1.validateBasic crypto hs.toHashes).mapError fun e => s!"invalid evidence (#{p.2}): {e}"
  reject (block.header.evidenceHash ≠ hs.evidence block.evidence) "wrong Header.EvidenceHash"

/-- The loop of `WeightedMedian` over the times in order. -/
def pickMedian : List (Time × Int) → Int → Time
  | [], _ => Time.zero
  | (time, weight) :: rest, median => if median < weight then time else pickMedian rest
    (median - weight)

/-- `WeightedMedian`; absent signatures stand at the end of the sorted times and are skipped. -/
def weightedMedian (weightedTimes : List (Time × Int)) (totalVotingPower : Int) : Time :=
  pickMedian (weightedTimes.insertionSort fun a b => a.1 ≤ b.1) (totalVotingPower.tdiv 2)

/-- The times of the signatures with the power of their validators. -/
def weightedTimes (validators : ValidatorSet) : List CommitSig → Except String (List (Time × Int))
  | [] => .ok []
  | commitSig :: sigs =>
    if commitSig.blockIDFlag = .absent then weightedTimes validators sigs
    else
      match validators.getByAddress commitSig.validatorAddress with
      | none => .error "commit validator not found in validator set"
      | some (_, validator) => do
        let rest ← weightedTimes validators sigs
        .ok ((commitSig.timestamp, validator.votingPower) :: rest)

/-- `MedianTime`, whose total is a sum of `int64`. -/
def medianTime (commit : Commit) (validators : ValidatorSet) : Except String Time := do
  let times ← weightedTimes validators commit.signatures
  .ok (weightedMedian times (wrap64 (times.map (·.2)).sum))

def maxBlockTimeTolerance : Int := 60 * 1000000000

def verifyFailureText : VerifyFailure → String
  | .panic msg => msg
  | .err msg => msg
  | .notEnoughVotingPowerSigned got needed =>
    s!"invalid commit -- insufficient voting power: got {got}, needed more than {needed}"

/-- The part of `validateBlock` for the last commit. -/
def validateLastCommit (crypto : BatchCrypto) (state : State) (block : FullBlock)
    (skipLastCommitVerification : Bool) : Except String Unit :=
  if block.header.height.toInt = state.initialHeight then
    reject (block.lastCommit.signatures.length ≠ 0) "initial block can't have LastCommit signatures"
  else if skipLastCommitVerification then .ok ()
  else
    (verifyCommit crypto state.chainID state.lastValidators.toValidatorSet state.lastBlockID
      (block.header.height - 1) block.lastCommit).mapError verifyFailureText

/-- The part of `validateBlock` for the time. -/
def validateTime (state : State) (block : FullBlock) : Except String Unit :=
  if state.initialHeight < block.header.height.toInt then do
    reject (block.header.time ≤ state.lastBlockTime) "block time not greater than last block time"
    match medianTime block.lastCommit state.lastValidators.toValidatorSet with
    | .error err =>
      .error s!"error validating block while calculating median time: {err}"
    | .ok time => reject (block.header.time ≠ time) "invalid block time"
  else if block.header.height.toInt = state.initialHeight then
    reject (block.header.time ≠ state.lastBlockTime) "block time is not equal to genesis time"
  else .error s!"block height {block.header.height} lower than initial height {state.initialHeight}"

/-- `validateBlock`, at a time of the wall clock. -/
def validateBlock (crypto : BatchCrypto) (hs : BlockHashes) (state : State) (block : FullBlock)
    (skipLastCommitVerification : Bool) (now : Time) : Except String Unit := do
  block.validateBasic crypto.toCrypto hs
  reject (block.header.versionApp ≠ state.versionApp ∨
    block.header.versionBlock ≠ state.versionBlock)
    "wrong Block.Header.Version"
  reject (block.header.chainID ≠ state.chainID) "wrong Block.Header.ChainID"
  reject (state.lastBlockHeight = 0 ∧ block.header.height.toInt ≠ state.initialHeight)
    (s!"wrong Block.Header.Height. Expected {block.header.height} for initial block, " ++
      s!"got {state.initialHeight}")
  reject (0 < state.lastBlockHeight ∧ block.header.height.toInt ≠ state.lastBlockHeight + 1)
    (s!"wrong Block.Header.Height. Expected {state.lastBlockHeight + 1}, " ++
      s!"got {block.header.height}")
  reject (block.header.lastBlockID ≠ state.lastBlockID) "wrong Block.Header.LastBlockID"
  reject (block.header.appHash ≠ state.appHash) "wrong Block.Header.AppHash"
  reject (block.header.consensusHash ≠ hs.params state.consensusParams)
    "wrong Block.Header.ConsensusHash"
  reject (block.header.lastResultsHash ≠ state.lastResultsHash) "wrong Block.Header.LastResultsHash"
  reject (block.header.validatorsHash ≠ hs.validators state.validators.toValidatorSet)
    "wrong Block.Header.ValidatorsHash"
  reject (block.header.nextValidatorsHash ≠ hs.validators state.nextValidators.toValidatorSet)
    "wrong Block.Header.NextValidatorsHash"
  validateLastCommit crypto state block skipLastCommitVerification
  reject (block.header.proposerAddress.length ≠ addressSize)
    s!"expected ProposerAddress size {addressSize}, got {block.header.proposerAddress.length}"
  reject (state.validators.toValidatorSet.hasAddress block.header.proposerAddress = false)
    "block.Header.ProposerAddress is not a validator"
  reject (now + maxBlockTimeTolerance ≤ block.header.time) "block time is too far in the future"
  validateTime state block
  reject (state.consensusParams.evidence.maxBytes < hs.evidenceSize block.evidence)
    (s!"Too much evidence: Max {state.consensusParams.evidence.maxBytes}, " ++
      s!"got {hs.evidenceSize block.evidence}")

/-- What an accepted block has in common with the state. -/
structure Accepted (crypto : BatchCrypto) (hs : BlockHashes) (state : State) (block : FullBlock) :
    Prop where
  basic : block.header.validateBasic = .ok ()
  chainID : block.header.chainID = state.chainID
  first : state.lastBlockHeight = 0 → block.header.height.toInt = state.initialHeight
  height : 0 < state.lastBlockHeight → block.header.height.toInt = state.lastBlockHeight + 1
  lastBlockID : block.header.lastBlockID = state.lastBlockID
  appHash : block.header.appHash = state.appHash
  lastResultsHash : block.header.lastResultsHash = state.lastResultsHash
  validatorsHash : block.header.validatorsHash = hs.validators state.validators.toValidatorSet
  nextValidatorsHash :
    block.header.nextValidatorsHash = hs.validators state.nextValidators.toValidatorSet
  time : state.initialHeight < block.header.height.toInt → state.lastBlockTime < block.header.time

theorem validateTime_eq_ok {state : State} {block : FullBlock}
    (h : validateTime state block = .ok ())
    (hlt : state.initialHeight < block.header.height.toInt) :
    state.lastBlockTime < block.header.time := by
  rw [validateTime, if_pos hlt, check_bind_eq_ok, reject_eq_ok] at h
  exact not_le.1 h.1

theorem validateBlock_eq_ok {crypto : BatchCrypto} {hs : BlockHashes} {state : State}
    {block : FullBlock} {skip : Bool} {now : Time}
    (h : validateBlock crypto hs state block skip now = .ok ()) :
      Accepted crypto hs state block := by
  simp only [validateBlock, FullBlock.validateBasic, check_bind_eq_ok, reject_eq_ok,
    mapError_eq_ok, ne_eq, not_not, not_and] at h
  obtain ⟨⟨hbasic, -⟩, -, hchain, hfirst, hheight, hid, happ, -, hres, hvals, hnext, -, -,
    -, -, htime,
    -⟩ := h
  exact ⟨hbasic, hchain, hfirst, hheight, hid, happ, hres, hvals, hnext,
    fun hlt => validateTime_eq_ok htime hlt⟩

end CelestiaCore.SM
