import CelestiaCore.Types.Commit

/-!
# Verification of commits

`types/validation.go`: the tally loops, single and batched. The threshold arithmetic is that of the
machine integers.
-/
namespace CelestiaCore
open Wire

/-- How a verification that does not return nil ends. -/
inductive VerifyFailure where
  | panic (msg : String)
  | err (msg : String)
  | notEnoughVotingPowerSigned (got needed : Int)
  deriving DecidableEq, Repr

/-- Signature verification with a batch verifier, whose acceptance of a batch vouches for every
signature that was added to it. -/
structure BatchCrypto extends Crypto where
  batchAdd : PubKey → Bytes → Bytes → Except String Unit
  batchVerify : List (PubKey × Bytes × Bytes) → Bool × List Bool
  batch_sound : ∀ batch, (batchVerify batch).1 = true →
    ∀ e ∈ batch, verifySignature e.1 e.2.1 e.2.2 = true

structure Fraction where
  numerator : UInt64
  denominator : UInt64
  deriving DecidableEq, Repr

def validateTrustLevel (lvl : Fraction) : Except String Unit :=
  if lvl.numerator * 3 < lvl.denominator ∨ lvl.denominator < lvl.numerator ∨
      lvl.denominator = 0 then
    .error s!"trustLevel must be within [1/3, 1], given {lvl.numerator}/{lvl.denominator}"
  else .ok ()

/-- `safeMul` on `int64`; `none` is an overflow. -/
def safeMul (a b : Int) : Option Int :=
  if a = 0 ∨ b = 0 then some 0
  else
    let absOfB := if b < 0 then wrap64 (-b) else b
    let absOfA := if a < 0 then wrap64 (-a) else a
    if maxInt64.tdiv absOfB < absOfA then none else some (wrap64 (a * b))

/-- What a verification counts and when it stops. -/
structure VerifyMode where
  votingPowerNeeded : Int
  ignoreSig : CommitSig → Bool
  countSig : CommitSig → Bool
  countAllSignatures : Bool
  lookUpByIndex : Bool

section Loops
variable (crypto : BatchCrypto) (chainID : Bytes) (vals : ValidatorSet) (commit : Commit)
  (mode : VerifyMode)

/-- The validator of a signature with its index; `none` skips a stranger. -/
def lookUp (seenVals : List (Nat × Nat)) (idx : Nat) (sig : CommitSig) :
    Except VerifyFailure (Option (Nat × Validator)) :=
  if mode.lookUpByIndex then
    match vals.validators[idx]? with
    | none => .error (.panic "index out of range")
    | some val =>
      if val.address ≠ sig.validatorAddress then
        .error (.err s!"validator address mismatch at index {idx}")
      else .ok (some (idx, val))
  else
    match vals.getByAddress sig.validatorAddress with
    | none => .ok none
    | some (valIdx, val) =>
      match seenVals.find? (·.1 = valIdx) with
      | some (_, firstIndex) => .error (.err s!"double vote ({firstIndex} and {idx})")
      | none => .ok (some (valIdx, val))

def see (seenVals : List (Nat × Nat)) (valIdx idx : Nat) : List (Nat × Nat) :=
  if mode.lookUpByIndex then seenVals else (valIdx, idx) :: seenVals

def addTally (tallied : Int) (sig : CommitSig) (val : Validator) : Int :=
  if mode.countSig sig then tallied + val.votingPower else tallied

/-- The loop of `verifyCommitSingle` over the signatures from index `idx` on. -/
def verifySingleLoop : List CommitSig → Nat → List (Nat × Nat) → Int → Except VerifyFailure Unit
  | [], _, _, tallied =>
    if tallied ≤ mode.votingPowerNeeded then
      .error (.notEnoughVotingPowerSigned tallied mode.votingPowerNeeded)
    else .ok ()
  | sig :: sigs, idx, seenVals, tallied =>
    if mode.ignoreSig sig then verifySingleLoop sigs (idx + 1) seenVals tallied
    else
      match sig.validateBasic with
      | .error _ => .error (.err s!"invalid signatures at index {idx}")
      | .ok () =>
        match lookUp vals mode seenVals idx sig with
        | .error e => .error e
        | .ok none => verifySingleLoop sigs (idx + 1) seenVals tallied
        | .ok (some (valIdx, val)) =>
          match val.pubKey with
          | none => .error (.err s!"validator has a nil PubKey at index {idx}")
          | some pk =>
            match commit.voteSignBytes chainID idx with
            | none => .error (.panic "VoteSignBytes")
            | some signBytes =>
              if crypto.verifySignature pk signBytes sig.signature then
                let tallied := addTally mode tallied sig val
                if mode.countAllSignatures = false ∧ mode.votingPowerNeeded < tallied then .ok ()
                else verifySingleLoop sigs (idx + 1) (see mode seenVals valIdx idx) tallied
              else .error (.err s!"wrong signature (#{idx})")

def verifyCommitSingle : Except VerifyFailure Unit :=
  verifySingleLoop crypto chainID vals commit mode commit.signatures 0 [] 0

/-- A signature added to a batch, with its index in the commit. -/
structure BatchEntry where
  idx : Nat
  pubKey : PubKey
  signBytes : Bytes
  signature : Bytes

/-- The loop of `verifyCommitBatch`: the batch and the power it stands for. -/
def collectBatch : List CommitSig → Nat → List (Nat × Nat) → Int → List BatchEntry →
    Except VerifyFailure (List BatchEntry × Int)
  | [], _, _, tallied, batch => .ok (batch, tallied)
  | sig :: sigs, idx, seenVals, tallied, batch =>
    if mode.ignoreSig sig then collectBatch sigs (idx + 1) seenVals tallied batch
    else
      match lookUp vals mode seenVals idx sig with
      | .error e => .error e
      | .ok none => collectBatch sigs (idx + 1) seenVals tallied batch
      | .ok (some (valIdx, val)) =>
        match commit.voteSignBytes chainID idx, val.pubKey with
        | none, _ => .error (.panic "VoteSignBytes")
        | some _, none => .error (.err "nil public key")
        | some signBytes, some pk =>
          match crypto.batchAdd pk signBytes sig.signature with
          | .error e => .error (.err e)
          | .ok () =>
            let batch := batch ++ [⟨idx, pk, signBytes, sig.signature⟩]
            let tallied := addTally mode tallied sig val
            if mode.countAllSignatures = false ∧ mode.votingPowerNeeded < tallied then
              .ok (batch, tallied)
            else collectBatch sigs (idx + 1) (see mode seenVals valIdx idx) tallied batch

def KeyType.supportsBatchVerifier : KeyType → Bool
  | .ed25519 => true
  | .sr25519 => true
  | .secp256k1 => false

/-- The public key of the proposer, as an error where the source dereferences nil. -/
def proposerKey : Except VerifyFailure (Option PubKey) :=
  match vals.getProposer with
  | .error e => .error (.panic e)
  | .ok none => .error (.panic "nil pointer dereference")
  | .ok (some p) => .ok p.pubKey

def shouldBatchVerify : Except VerifyFailure Bool :=
  if commit.signatures.length < 2 then .ok false
  else do
    let pk ← proposerKey vals
    .ok (pk.any (·.type.supportsBatchVerifier) && vals.allKeysHaveSameType)

def verifyCommitBatch : Except VerifyFailure Unit := do
  let pk ← proposerKey vals
  if pk.any (·.type.supportsBatchVerifier) = false ∨ commit.signatures.length < 2 then
    .error (.err
      "unsupported signature algorithm or insufficient signatures for batch verification")
  else
    let (batch, tallied) ← collectBatch crypto chainID vals commit mode commit.signatures 0 [] 0 []
    if tallied ≤ mode.votingPowerNeeded then
      .error (.notEnoughVotingPowerSigned tallied mode.votingPowerNeeded)
    else
      let (ok, validSigs) :=
        crypto.batchVerify (batch.map fun e => (e.pubKey, e.signBytes, e.signature))
      if ok then .ok ()
      else
        match (batch.zip validSigs).find? (·.2 = false) with
        | some (e, _) => .error (.err s!"wrong signature (#{e.idx})")
        | none => .error (.err "BUG: batch verification failed with no invalid signatures")

/-- Batched where that is possible, signature by signature otherwise. -/
def verifyCommitWith : Except VerifyFailure Unit := do
  if ← shouldBatchVerify vals commit then verifyCommitBatch crypto chainID vals commit mode
  else verifyCommitSingle crypto chainID vals commit mode

end Loops

section Entry
variable (crypto : BatchCrypto) (chainID : Bytes) (vals : ValidatorSet)

def verifyBasicValsAndCommit (commit : Commit) (height : Int64) (blockID : BlockID) :
    Except VerifyFailure Unit :=
  if vals.size ≠ commit.signatures.length then
    .error (.err s!"Invalid commit -- wrong set size: {vals.size} vs {commit.signatures.length}")
  else if height ≠ commit.height then
    .error (.err s!"Invalid commit -- wrong height: {height} vs {commit.height}")
  else if blockID ≠ commit.blockID then .error (.err "invalid commit -- wrong block ID")
  else .ok ()

/-- `TotalVotingPower`, which panics where the total is too large. -/
def totalOrPanic : Except VerifyFailure Int :=
  match vals.totalVotingPower with
  | .error e => .error (.panic e)
  | .ok total => .ok total

def verifyCommit (blockID : BlockID) (height : Int64) (commit : Commit) :
    Except VerifyFailure Unit := do
  verifyBasicValsAndCommit vals commit height blockID
  let total ← totalOrPanic vals
  verifyCommitWith crypto chainID vals commit
    { votingPowerNeeded := total * 2 / 3
      ignoreSig := fun c => c.blockIDFlag = .absent
      countSig := fun c => c.blockIDFlag = .commit
      countAllSignatures := true
      lookUpByIndex := true }

/-- `verifyCommitLightInternal`; `VerifyCommitLight` does not count all signatures. -/
def verifyCommitLightInternal (blockID : BlockID) (height : Int64) (commit : Commit)
    (countAllSignatures : Bool) : Except VerifyFailure Unit := do
  verifyBasicValsAndCommit vals commit height blockID
  let total ← totalOrPanic vals
  verifyCommitWith crypto chainID vals commit
    { votingPowerNeeded := total * 2 / 3
      ignoreSig := fun c => c.blockIDFlag ≠ .commit
      countSig := fun _ => true
      countAllSignatures
      lookUpByIndex := true }

def verifyCommitLight (blockID : BlockID) (height : Int64) (commit : Commit) :
    Except VerifyFailure Unit :=
  verifyCommitLightInternal crypto chainID vals blockID height commit false

/-- The quotient of `int64` values that a trust level makes of the total power. -/
def trustThreshold (total : Int) (lvl : Fraction) : Option Int :=
  (safeMul total lvl.numerator.toInt64.toInt).map fun product =>
    wrap64 (product.tdiv lvl.denominator.toInt64.toInt)

def verifyCommitLightTrustingInternal (commit : Commit) (trustLevel : Fraction)
    (countAllSignatures : Bool) : Except VerifyFailure Unit := do
  if trustLevel.denominator = 0 then .error (.err "trustLevel has zero Denominator")
  else
    let total ← totalOrPanic vals
    match trustThreshold total trustLevel with
    | none =>
      .error (.err ("int64 overflow while calculating voting power needed. please provide " ++
        "smaller trustLevel numerator"))
    | some votingPowerNeeded =>
      verifyCommitWith crypto chainID vals commit
        { votingPowerNeeded
          ignoreSig := fun c => c.blockIDFlag ≠ .commit
          countSig := fun _ => true
          countAllSignatures
          lookUpByIndex := false }

def verifyCommitLightTrusting (commit : Commit) (trustLevel : Fraction) :
    Except VerifyFailure Unit :=
  verifyCommitLightTrustingInternal crypto chainID vals commit trustLevel false

end Entry

end CelestiaCore
