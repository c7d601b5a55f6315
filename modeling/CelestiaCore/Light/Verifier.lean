import CelestiaCore.Types.LightBlock

/-!
# Verification of one light block against another

`light/verifier.go`: `VerifyAdjacent`, `VerifyNonAdjacent` and `Verify`.
-/
namespace CelestiaCore.Light
open Wire

/-- What the functions of the verifier return as an error, or how they panic. -/
inductive LightError where
  | oldHeaderExpired (at_ now : Time)
  | newValSetCantBeTrusted (got needed : Int)
  | invalidHeader (reason : String)
  | other (msg : String)
  | panic (msg : String)
  deriving DecidableEq, Repr

/-- The settings of a light client that verification reads. -/
structure Config where
  crypto : BatchCrypto
  hashes : Hashes
  trustingPeriod : Int
  maxClockDrift : Int
  trustLevel : Fraction

def headerExpired (h : SignedHeader) (trustingPeriod : Int) (now : Time) : Bool :=
  h.time + trustingPeriod ≤ now

section Verify
variable (cfg : Config) (trusted : LightBlock) (untrusted : LightBlock) (now : Time)

def verifyNewHeaderAndVals : Except String Unit := do
  (untrusted.toSignedHeader.validateBasic cfg.hashes trusted.header.chainID).mapError
    fun e => s!"untrustedHeader.ValidateBasic failed: {e}"
  reject (untrusted.height ≤ trusted.height)
    (s!"expected new header height {untrusted.height} to be greater than one of old header " ++
      s!"{trusted.height}")
  reject (untrusted.time ≤ trusted.time)
    "expected new header time to be after old header time"
  reject (now + cfg.maxClockDrift ≤ untrusted.time) "new header has a time from the future"
  reject (untrusted.header.validatorsHash ≠ cfg.hashes.validators untrusted.validatorSet)
    ("expected new header validators to match those that were supplied at height " ++
      s!"{untrusted.height}")

/-- The last check: more than two thirds of the new validators signed. -/
def verifyCommitOfBlock : Except LightError Unit :=
  match verifyCommitLight cfg.crypto trusted.header.chainID untrusted.validatorSet
      untrusted.commit.blockID untrusted.height untrusted.commit with
  | .ok () => .ok ()
  | .error (.panic msg) => .error (.panic msg)
  | .error (.err msg) => .error (.invalidHeader msg)
  | .error (.notEnoughVotingPowerSigned got needed) =>
    .error (.invalidHeader s!"not enough voting power signed: got {got}, needed more than {needed}")

def verifyNonAdjacent : Except LightError Unit :=
  if untrusted.height = trusted.height + 1 then
    .error (.other "headers must be non adjacent in height")
  else if headerExpired trusted.toSignedHeader cfg.trustingPeriod now then
    .error (.oldHeaderExpired (trusted.time + cfg.trustingPeriod) now)
  else
    match verifyNewHeaderAndVals cfg trusted untrusted now with
    | .error e => .error (.invalidHeader e)
    | .ok () =>
      match verifyCommitLightTrusting cfg.crypto trusted.header.chainID trusted.validatorSet
          untrusted.commit cfg.trustLevel with
      | .error (.notEnoughVotingPowerSigned got needed) =>
        .error (.newValSetCantBeTrusted got needed)
      | .error (.err msg) => .error (.other msg)
      | .error (.panic msg) => .error (.panic msg)
      | .ok () => verifyCommitOfBlock cfg trusted untrusted

def verifyAdjacent : Except LightError Unit :=
  if untrusted.height ≠ trusted.height + 1 then
    .error (.other "headers must be adjacent in height")
  else if headerExpired trusted.toSignedHeader cfg.trustingPeriod now then
    .error (.oldHeaderExpired (trusted.time + cfg.trustingPeriod) now)
  else
    match verifyNewHeaderAndVals cfg trusted untrusted now with
    | .error e => .error (.invalidHeader e)
    | .ok () =>
      if untrusted.header.validatorsHash ≠ trusted.header.nextValidatorsHash then
        .error (.other "expected old header next validators to match those from new header")
      else verifyCommitOfBlock cfg trusted untrusted

def verify : Except LightError Unit :=
  if untrusted.height ≠ trusted.height + 1 then verifyNonAdjacent cfg trusted untrusted now
  else verifyAdjacent cfg trusted untrusted now

end Verify

section Spec
variable {cfg : Config} {trusted untrusted : LightBlock} {now : Time}

/-- What `verifyNewHeaderAndVals` has checked. -/
structure NewHeader (cfg : Config) (trusted untrusted : LightBlock) (now : Time) : Prop where
  basic : untrusted.toSignedHeader.validateBasic cfg.hashes trusted.header.chainID = .ok ()
  height_lt : trusted.height < untrusted.height
  time_lt : trusted.time < untrusted.time
  time_drift : untrusted.time < now + cfg.maxClockDrift
  validators : untrusted.header.validatorsHash = cfg.hashes.validators untrusted.validatorSet

theorem verifyNewHeaderAndVals_eq_ok : verifyNewHeaderAndVals cfg trusted untrusted now = .ok () ↔
      NewHeader cfg trusted untrusted now := by
  unfold verifyNewHeaderAndVals
  simp only [check_bind_eq_ok, mapError_eq_ok, reject_eq_ok, not_le, ne_eq, not_not]
  constructor
  · rintro ⟨h1, h2, h3, h4, h5⟩
    exact ⟨h1, by simpa [Int64.not_le] using h2, h3, h4, h5⟩
  · rintro ⟨h1, h2, h3, h4, h5⟩
    exact ⟨h1, by simpa [Int64.not_le] using h2, h3, h4, h5⟩

/-- What a light block that passes `Verify` meets. -/
structure Verified (cfg : Config) (trusted untrusted : LightBlock) (now : Time) : Prop where
  unexpired : headerExpired trusted.toSignedHeader cfg.trustingPeriod now = false
  newHeader : NewHeader cfg trusted untrusted now
  commit : verifyCommitLight cfg.crypto trusted.header.chainID untrusted.validatorSet
    untrusted.commit.blockID untrusted.height untrusted.commit = .ok ()
  link : untrusted.height = trusted.height + 1 ∧
      untrusted.header.validatorsHash = trusted.header.nextValidatorsHash ∨
    untrusted.height ≠ trusted.height + 1 ∧ verifyCommitLightTrusting cfg.crypto
      trusted.header.chainID trusted.validatorSet untrusted.commit cfg.trustLevel = .ok ()

theorem verifyCommitOfBlock_eq_ok : verifyCommitOfBlock cfg trusted untrusted = .ok () ↔
    verifyCommitLight cfg.crypto trusted.header.chainID untrusted.validatorSet
      untrusted.commit.blockID untrusted.height untrusted.commit = .ok () := by
  unfold verifyCommitOfBlock
  split <;> simp_all

theorem verifyCommitOfBlock_ne (got needed : Int) :
    verifyCommitOfBlock cfg trusted untrusted ≠ .error (.newValSetCantBeTrusted got needed) := by
  unfold verifyCommitOfBlock
  split <;> simp

/-- The checks that come first in both ways of verifying. -/
theorem newHeader_of_checks {rest r : Except LightError Unit}
    (h : (if headerExpired trusted.toSignedHeader cfg.trustingPeriod now then
        .error (.oldHeaderExpired (trusted.time + cfg.trustingPeriod) now)
      else
        match verifyNewHeaderAndVals cfg trusted untrusted now with
        | .error e => .error (.invalidHeader e)
        | .ok () => rest) = r)
    (hold : ∀ t t', r ≠ .error (.oldHeaderExpired t t'))
      (hnew : ∀ e, r ≠ .error (.invalidHeader e)) :
    headerExpired trusted.toSignedHeader cfg.trustingPeriod now = false ∧
      NewHeader cfg trusted untrusted now ∧ rest = r := by
  split at h
  · exact absurd h.symm (hold _ _)
  next hexp =>
  split at h
  · exact absurd h.symm (hnew _)
  next hok => exact ⟨by simpa using hexp, verifyNewHeaderAndVals_eq_ok.1 hok, h⟩

theorem verifyAdjacent_eq_ok (h : verifyAdjacent cfg trusted untrusted now = .ok ()) :
    Verified cfg trusted untrusted now := by
  unfold verifyAdjacent at h
  by_cases hadj : untrusted.height ≠ trusted.height + 1
  · simp [hadj] at h
  rw [if_neg hadj] at h
  obtain ⟨hexp, hnew, h⟩ := newHeader_of_checks h (by simp) (by simp)
  by_cases hvals : untrusted.header.validatorsHash ≠ trusted.header.nextValidatorsHash
  · simp [hvals] at h
  rw [if_neg hvals] at h
  exact ⟨hexp, hnew, verifyCommitOfBlock_eq_ok.1 h, Or.inl ⟨not_not.1 hadj, not_not.1 hvals⟩⟩

theorem verifyNonAdjacent_eq_ok (h : verifyNonAdjacent cfg trusted untrusted now = .ok ()) :
    Verified cfg trusted untrusted now := by
  unfold verifyNonAdjacent at h
  by_cases hadj : untrusted.height = trusted.height + 1
  · simp [hadj] at h
  rw [if_neg hadj] at h
  obtain ⟨hexp, hnew, h⟩ := newHeader_of_checks h (by simp) (by simp)
  cases htrust : verifyCommitLightTrusting cfg.crypto trusted.header.chainID trusted.validatorSet
      untrusted.commit cfg.trustLevel with
  | error e => cases e <;> simp [htrust] at h
  | ok u =>
    simp only [htrust] at h
    exact ⟨hexp, hnew, verifyCommitOfBlock_eq_ok.1 h, Or.inr ⟨hadj, htrust⟩⟩

theorem verify_eq_ok (h : verify cfg trusted untrusted now = .ok ()) :
    Verified cfg trusted untrusted now := by
  unfold verify at h
  split_ifs at h with hadj
  · exact verifyNonAdjacent_eq_ok h
  · exact verifyAdjacent_eq_ok h

theorem verify_of_verifyAdjacent (h : verifyAdjacent cfg trusted untrusted now = .ok ()) :
    verify cfg trusted untrusted now = .ok () := by
  unfold verify
  by_cases hadj : untrusted.height ≠ trusted.height + 1
  · simp [verifyAdjacent, hadj] at h
  · rwa [if_neg hadj]

theorem verify_cantBeTrusted {got needed : Int}
    (h : verify cfg trusted untrusted now = .error (.newValSetCantBeTrusted got needed)) :
    untrusted.height ≠ trusted.height + 1 ∧ NewHeader cfg trusted untrusted now := by
  unfold verify at h
  split_ifs at h with hadj
  · unfold verifyNonAdjacent at h
    rw [if_neg hadj] at h
    exact ⟨hadj, (newHeader_of_checks h (by simp) (by simp)).2.1⟩
  · exfalso
    unfold verifyAdjacent at h
    rw [if_neg hadj] at h
    obtain ⟨-, -, h⟩ := newHeader_of_checks h (by simp) (by simp)
    by_cases hvals : untrusted.header.validatorsHash ≠ trusted.header.nextValidatorsHash
    · simp [hvals] at h
    · rw [if_neg hvals] at h
      exact verifyCommitOfBlock_ne got needed h

end Spec

section Examples

/-- A key whose address is its first bytes and which accepts one signature. -/
def exampleCrypto : BatchCrypto where
  address pk := pk.bytes.take 20
  verifySignature _ _ sig := sig == [1]
  batchAdd _ _ _ := .ok ()
  batchVerify _ := (false, [])
  batch_sound := by simp

def exampleHash (b : UInt8) : Bytes := .replicate 32 b

def exampleHashes : Hashes where
  header h := exampleHash h.height.toUInt64.toUInt8
  validators _ := exampleHash 1
  proposerPriority _ := exampleHash 2

def exampleConfig : Config := ⟨exampleCrypto, exampleHashes, 1000, 10, ⟨1, 3⟩⟩

def exampleValidators : ValidatorSet :=
  let v : Validator := ⟨.replicate 20 1, some ⟨.ed25519, .replicate 32 1⟩, 1, 0⟩
  ⟨[v], some v, true⟩

def exampleHeader (height : Int64) : Header :=
  { versionBlock := blockProtocol, versionApp := 0, chainID := [99], height := height
    time := height.toInt, lastBlockID := .zero, lastCommitHash := [], dataHash := []
    validatorsHash := exampleHash 1, nextValidatorsHash := exampleHash 1, consensusHash := []
    appHash := [], lastResultsHash := [], evidenceHash := [], proposerAddress := .replicate 20 1 }

/-- A block of one validator, with a signature that is valid when its byte is 1. -/
def exampleBlock (height : Int64) (sig : UInt8) : LightBlock where
  header := exampleHeader height
  commit := ⟨height, 0, ⟨exampleHash height.toUInt64.toUInt8, ⟨1, exampleHash 3⟩⟩,
    [⟨.commit, .replicate 20 1, height.toInt, [sig]⟩]⟩
  validatorSet := exampleValidators

example : verify exampleConfig (exampleBlock 1 1) (exampleBlock 6 1) 100 = .ok () := by
  decide +kernel

end Examples

end CelestiaCore.Light
