import CelestiaCore.Types.Validation

/-!
# Light blocks

`Header` of `types/block.go` and `SignedHeader` and `LightBlock` of `types/light.go`, with their
checks. The hashes of a header and of a validator set are parameters.
-/
namespace CelestiaCore
open Wire

def maxChainIDLen : Nat := 50

def blockProtocol : UInt64 := 11

structure Header where
  versionBlock : UInt64
  versionApp : UInt64
  chainID : Bytes
  height : Int64
  time : Time
  lastBlockID : BlockID
  lastCommitHash : Bytes
  dataHash : Bytes
  validatorsHash : Bytes
  nextValidatorsHash : Bytes
  consensusHash : Bytes
  appHash : Bytes
  lastResultsHash : Bytes
  evidenceHash : Bytes
  proposerAddress : Bytes
  deriving DecidableEq, Repr

def Header.validateBasic (h : Header) : Except String Unit := do
  reject (h.versionBlock ≠ blockProtocol)
    s!"block protocol is incorrect: got: {h.versionBlock}, want: {blockProtocol} "
  reject (maxChainIDLen < h.chainID.length)
    s!"chainID is too long; got: {h.chainID.length}, max: {maxChainIDLen}"
  reject (h.height < 0) "negative Height"
  reject (h.height = 0) "zero Height"
  h.lastBlockID.validateBasic.mapError fun e => s!"wrong LastBlockID: {e}"
  (validateHash h.lastCommitHash).mapError fun e => s!"wrong LastCommitHash: {e}"
  (validateHash h.dataHash).mapError fun e => s!"wrong DataHash: {e}"
  (validateHash h.evidenceHash).mapError fun e => s!"wrong EvidenceHash: {e}"
  reject (h.proposerAddress.length ≠ addressSize)
    s!"invalid ProposerAddress length; got: {h.proposerAddress.length}, expected: {addressSize}"
  (validateHash h.validatorsHash).mapError fun e => s!"wrong ValidatorsHash: {e}"
  (validateHash h.nextValidatorsHash).mapError fun e => s!"wrong NextValidatorsHash: {e}"
  (validateHash h.consensusHash).mapError fun e => s!"wrong ConsensusHash: {e}"
  (validateHash h.lastResultsHash).mapError fun e => s!"wrong LastResultsHash: {e}"

/-- `Header.Hash`, `ValidatorSet.Hash` and `ValidatorSet.ProposerPriorityHash`. -/
structure Hashes where
  header : Header → Bytes
  validators : ValidatorSet → Bytes
  proposerPriority : ValidatorSet → Bytes

structure SignedHeader where
  header : Header
  commit : Commit
  deriving DecidableEq, Repr

structure LightBlock extends SignedHeader where
  validatorSet : ValidatorSet
  deriving DecidableEq, Repr

def SignedHeader.height (sh : SignedHeader) : Int64 := sh.header.height

def SignedHeader.time (sh : SignedHeader) : Time := sh.header.time

def SignedHeader.hash (hs : Hashes) (sh : SignedHeader) : Bytes := hs.header sh.header

def SignedHeader.validateBasic (hs : Hashes) (sh : SignedHeader) (chainID : Bytes) :
    Except String Unit := do
  sh.header.validateBasic.mapError fun e => s!"invalid header: {e}"
  sh.commit.validateBasic.mapError fun e => s!"invalid commit: {e}"
  reject (sh.header.chainID ≠ chainID) "header belongs to another chain"
  reject (sh.commit.height ≠ sh.height)
    s!"header and commit height mismatch: {sh.height} vs {sh.commit.height}"
  reject (sh.hash hs ≠ sh.commit.blockID.hash) "commit signs another block than the header"

def LightBlock.validateBasic (crypto : Crypto) (hs : Hashes) (lb : LightBlock) (chainID : Bytes) :
    Except String Unit := do
  (lb.toSignedHeader.validateBasic hs chainID).mapError fun e => s!"invalid signed header: {e}"
  (lb.validatorSet.validateBasic crypto).mapError fun e => s!"invalid validator set: {e}"
  reject (lb.header.validatorsHash ≠ hs.validators lb.validatorSet)
    "expected validator hash of header to match validator set hash"

end CelestiaCore
