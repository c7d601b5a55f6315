import CelestiaCore.Types.VoteSet

/-!
# Commits

`CommitSig`, `Commit` and their extended forms of `types/block.go`.
-/
namespace CelestiaCore
open Wire Quorum

/-- `BlockIDFlag` is a byte, so unknown values can arrive on the wire. -/
inductive BlockIDFlag where
  | absent
  | commit
  | nil
  | unknown (b : UInt8)
  deriving DecidableEq, Repr

/-- The zero value of a Go `time.Time`. -/
def Time.zero : Time := -62135596800 * 1000000000

structure CommitSig where
  blockIDFlag : BlockIDFlag
  validatorAddress : Bytes
  timestamp : Time
  signature : Bytes
  deriving DecidableEq, Repr

namespace CommitSig

def absent : CommitSig := ⟨.absent, [], .zero, []⟩

/-- `BlockID`, with `none` for its panic on an unknown flag. -/
def blockID (cs : CommitSig) (commitBlockID : BlockID) : Option BlockID :=
  match cs.blockIDFlag with
  | .absent => some .zero
  | .commit => some commitBlockID
  | .nil => some .zero
  | .unknown _ => none

def validateBasic (cs : CommitSig) : Except String Unit :=
  match cs.blockIDFlag with
  | .unknown b => .error s!"unknown BlockIDFlag: {b}"
  | .absent =>
    if cs.validatorAddress.length ≠ 0 then .error "validator address is present"
    else if cs.timestamp ≠ Time.zero then .error "time is present"
    else if cs.signature.length ≠ 0 then .error "signature is present"
    else .ok ()
  | _ =>
    if cs.validatorAddress.length ≠ addressSize then
      .error (s!"expected ValidatorAddress size to be {addressSize} bytes, got " ++
        s!"{cs.validatorAddress.length} bytes")
    else if cs.signature.length = 0 then .error "signature is missing"
    else if maxSignatureSize < cs.signature.length then
      .error s!"signature is too big (max: {maxSignatureSize})"
    else .ok ()

end CommitSig

structure Commit where
  height : Int64
  round : Int32
  blockID : BlockID
  signatures : List CommitSig
  deriving DecidableEq, Repr

/-- `GetVote`, with `none` for its panics. -/
def Commit.getVote (commit : Commit) (valIdx : Nat) : Option Vote := do
  let sig ← commit.signatures[valIdx]?
  let blockID ← sig.blockID commit.blockID
  some {
    type := .precommit
    height := commit.height
    round := commit.round
    blockID := blockID
    timestamp := sig.timestamp
    validatorAddress := sig.validatorAddress
    validatorIndex := Int32.ofNat valIdx
    signature := sig.signature
    extension := []
    extensionSignature := [] }

def Commit.voteSignBytes (commit : Commit) (chainID : Bytes) (valIdx : Nat) : Option Bytes := do
  let vote ← commit.getVote valIdx
  CelestiaCore.voteSignBytes chainID vote

def Commit.validateBasic (commit : Commit) : Except String Unit := do
  reject (commit.height < 0) "negative Height"
  reject (commit.round < 0) "negative Round"
  if 1 ≤ commit.height then
    reject (commit.blockID.isZero = true) "commit cannot be for nil block"
    commit.blockID.validateBasic.mapError fun e => s!"wrong BlockID: {e}"
    reject (commit.signatures.length = 0) "no signatures in commit"
    commit.signatures.zipIdx.forM fun p =>
      p.1.validateBasic.mapError fun e => s!"wrong CommitSig #{p.2}: {e}"
  else pure ()

/-- The loop of `ToVoteSet` over the signatures from index `idx` on; its errors are panics. -/
def Commit.addSigs (crypto : Crypto) (commit : Commit) :
    List CommitSig → Nat → VoteSet → Except String VoteSet
  | [], _, vs => .ok vs
  | cs :: sigs, idx, vs =>
    if cs.blockIDFlag = .absent then commit.addSigs crypto sigs (idx + 1) vs
    else
      match commit.getVote idx with
      | none => .error "Unknown BlockIDFlag"
      | some vote =>
        match vote.validateBasic with
        | .error e => .error s!"failed to validate vote reconstructed from commit: {e}"
        | .ok () =>
          match vs.addVote crypto vote with
          | .ok (vs', true, none) => commit.addSigs crypto sigs (idx + 1) vs'
          | _ => .error "failed to reconstruct vote set from commit"

/-- `ToVoteSet`; its errors are panics. -/
def Commit.toVoteSet (crypto : Crypto) (chainID : Bytes) (vals : BoundedValidatorSet)
    (commit : Commit) : Except String VoteSet :=
  match VoteSet.new chainID commit.height.toInt commit.round.toInt .precommit vals false with
  | .error _ => .error "Cannot make VoteSet for height == 0, doesn't make sense."
  | .ok vs => commit.addSigs crypto commit.signatures 0 vs

/-- `CommitSig` of a vote, with `none` for its panic on a block identifier that is neither empty
nor complete. -/
def Vote.commitSig (vote : Vote) : Option CommitSig :=
  if vote.blockID.isComplete then
    some ⟨.commit, vote.validatorAddress, vote.timestamp, vote.signature⟩
  else if vote.blockID.isZero then
    some ⟨.nil, vote.validatorAddress, vote.timestamp, vote.signature⟩
  else none

structure ExtendedCommitSig extends CommitSig where
  extension : Bytes
  extensionSignature : Bytes
  deriving DecidableEq, Repr

namespace ExtendedCommitSig

def absent : ExtendedCommitSig := ⟨.absent, [], []⟩

def ensureExtension (ecs : ExtendedCommitSig) (extEnabled : Bool) : Except String Unit :=
  if extEnabled then do
    reject (ecs.blockIDFlag = .commit ∧ ecs.extensionSignature.length = 0)
      "vote extension signature is missing"
    reject (ecs.blockIDFlag ≠ .commit ∧ ecs.extension.length ≠ 0)
      "non-commit vote extension present"
    reject (ecs.blockIDFlag ≠ .commit ∧ ecs.extensionSignature.length ≠ 0)
      "non-commit vote extension signature present"
  else do
    reject (ecs.extension.length ≠ 0) "vote extension present but extensions disabled"
    reject (ecs.extensionSignature.length ≠ 0)
      "vote extension signature present but extensions disabled"

end ExtendedCommitSig

/-- `ExtendedCommitSig` of a vote that may be nil. -/
def extendedCommitSig : Option Vote → Option ExtendedCommitSig
  | none => some .absent
  | some vote => vote.commitSig.map fun cs => ⟨cs, vote.extension, vote.extensionSignature⟩

structure ExtendedCommit where
  height : Int64
  round : Int32
  blockID : BlockID
  extendedSignatures : List ExtendedCommitSig
  deriving DecidableEq, Repr

namespace ExtendedCommit

def ensureExtensions (ec : ExtendedCommit) (extEnabled : Bool) : Except String Unit :=
  ec.extendedSignatures.forM (·.ensureExtension extEnabled)

def toCommit (ec : ExtendedCommit) : Commit :=
  ⟨ec.height, ec.round, ec.blockID, ec.extendedSignatures.map (·.toCommitSig)⟩

end ExtendedCommit

structure ABCIParams where
  voteExtensionsEnableHeight : Int64
  deriving DecidableEq, Repr

/-- `VoteExtensionsEnabled`, with `none` for its panic below height 1. -/
def ABCIParams.voteExtensionsEnabled (ap : ABCIParams) (h : Int64) : Option Bool :=
  if h < 1 then none
  else some (ap.voteExtensionsEnableHeight ≠ 0 ∧ ap.voteExtensionsEnableHeight ≤ h)

/-- The signature of one slot of a vote set: a vote for another block than the majority is left
out. -/
def VoteSet.commitSigOf (maj23 : BlockID) (vote : Option Vote) : Option ExtendedCommitSig :=
  (extendedCommitSig vote).map fun sig =>
    if sig.blockIDFlag = .commit ∧ vote.any (·.blockID ≠ maj23) then .absent else sig

/-- `MakeExtendedCommit`; its errors are panics. -/
def VoteSet.makeExtendedCommit (vs : VoteSet) (ap : ABCIParams) : Except String ExtendedCommit :=
  if vs.signedMsgType ≠ .precommit then
    .error "Cannot MakeExtendCommit() unless VoteSet.Type is PrecommitType"
  else
    match vs.maj23 with
    | none => .error "Cannot MakeExtendCommit() unless a blockhash has +2/3"
    | some maj23 =>
      match vs.votes.mapM (commitSigOf maj23) with
      | none => .error "Invalid vote - expected BlockID to be either empty or complete"
      | some sigs =>
        let ec : ExtendedCommit := ⟨Int64.ofInt vs.height, Int32.ofInt vs.round, maj23, sigs⟩
        match ap.voteExtensionsEnabled ec.height with
        | none => .error "cannot check if vote extensions enabled"
        | some extEnabled =>
          match ec.ensureExtensions extEnabled with
          | .error e => .error ("problem with vote extension data when making extended commit " ++
            s!"of height {ec.height}; {e}")
          | .ok () => .ok ec

end CelestiaCore
