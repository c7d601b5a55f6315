import CelestiaCore.State.Validation
import CelestiaCore.State.LoadHistory
import CelestiaCore.State.Rollback
import CelestiaCore.Types.VerifyLight

/-!
# The chain of headers and the light client

Two blocks that a full node applies one after the other pass the adjacent verification of a light
client, if the commit is well formed: `VerifyCommit` does not look at absent signatures.
-/
namespace CelestiaCore.SM
open Wire Program

/-- A full node accepts and applies a block, and accepts the next one. -/
structure Consecutive (crypto : BatchCrypto) (hs : BlockHashes) (s s' : State)
    (block next : FullBlock) :
    Prop where
  accepted : ∃ skip now, validateBlock crypto hs s block skip now = .ok ()
  applied : ∃ blockID response, executed crypto.toCrypto s blockID block.header response = .ok s'
  acceptedNext : ∃ skip now, validateBlock crypto hs s' next skip now = .ok ()
  initial : s.initialHeight ≤ block.header.height.toInt

section Chain
variable {crypto : BatchCrypto} {hs : BlockHashes} {s s' : State} {block next : FullBlock}

structure HeadersLinked (header header' : Header) : Prop where
  chainID : header'.chainID = header.chainID
  height : header'.height.toInt = header.height.toInt + 1
  time : header.time < header'.time
  validators : header'.validatorsHash = header.nextValidatorsHash

theorem height_pos {header : Header} (h : header.validateBasic = .ok ()) :
    0 < header.height.toInt := by
  simp only [Header.validateBasic, check_bind_eq_ok, reject_eq_ok] at h
  obtain ⟨-, -, hneg, hzero, -⟩ := h
  have hlt := Int64.not_lt.1 hneg
  rw [Int64.le_iff_toInt_le] at hlt
  refine lt_of_le_of_ne hlt fun heq => hzero (Int64.toInt_inj.1 ?_)
  exact heq.symm

theorem eq_add_one {a b : Int64} (h : b.toInt = a.toInt + 1) : b = a + 1 := by
  have hlo := Int64.le_toInt b
  have hhi := Int64.toInt_lt b
  have hone : (1 : Int64).toInt = 1 := rfl
  have hwrap := wrap64_of_range hlo hhi
  rw [wrap64, h] at hwrap
  refine Int64.toInt_inj.1 ?_
  rw [Int64.toInt_add, hone, hwrap, h]

theorem Consecutive.linked (h : Consecutive crypto hs s s' block next) :
    HeadersLinked block.header next.header ∧
      next.header.validatorsHash = hs.validators s'.validators.toValidatorSet ∧
      next.header.validateBasic = .ok () := by
  obtain ⟨_, _, hblock⟩ := h.accepted
  obtain ⟨_, _, hnext⟩ := h.acceptedNext
  obtain ⟨blockID, response, happlied⟩ := h.applied
  have ha := validateBlock_eq_ok hblock
  have ha' := validateBlock_eq_ok hnext
  have hpos := height_pos ha.basic
  have hinitial := h.initial
  obtain ⟨nVals, params, -, -, rfl⟩ := executed_eq_ok_iff.1 happlied
  have hheight := ha'.height hpos
  refine ⟨⟨?_, hheight, ha'.time ?_, ?_⟩, ha'.validatorsHash, ha'.basic⟩
  · exact ha'.chainID.trans ha.chainID.symm
  · dsimp only at hheight ⊢
    omega
  · exact ha'.validatorsHash.trans ha.nextValidatorsHash.symm

end Chain

section Light
variable {cfg : Light.Config} {trusted untrusted : LightBlock} {now : Time}

theorem verifyAdjacent_of_checks (hheight : untrusted.height = trusted.height + 1)
    (hexpired : Light.headerExpired trusted.toSignedHeader cfg.trustingPeriod now = false)
    (hnew : Light.NewHeader cfg trusted untrusted now)
    (hvals : untrusted.header.validatorsHash = trusted.header.nextValidatorsHash)
    (hcommit : verifyCommitLight cfg.crypto trusted.header.chainID untrusted.validatorSet
      untrusted.commit.blockID untrusted.height untrusted.commit = .ok ()) :
    Light.verifyAdjacent cfg trusted untrusted now = .ok () := by
  have hok := Light.verifyNewHeaderAndVals_eq_ok.2 hnew
  rw [Light.verifyAdjacent, if_neg (not_not.2 hheight), hexpired, hok]
  simp only [Bool.false_eq_true, if_false]
  rw [if_neg (not_not.2 hvals)]
  exact Light.verifyCommitOfBlock_eq_ok.2 hcommit

end Light

theorem verifyCommit_height_blockID {crypto : BatchCrypto} {chainID : Bytes} {vals : ValidatorSet}
    {blockID : BlockID} {height : Int64} {commit : Commit}
    (h : verifyCommit crypto chainID vals blockID height commit = .ok ()) :
    height = commit.height ∧ blockID = commit.blockID := by
  obtain ⟨hheight, hid⟩ := verifyBasicValsAndCommit_ok (verifyCommit_eq_ok.1 h).1
  exact ⟨hheight.symm, hid.symm⟩

/-- A light client with the validators in force accepts the second of two blocks applied in a row,
unless the first header has expired or the second is from the future. -/
theorem light_client_follows (crypto : CompleteBatchCrypto) (hs : BlockHashes) (s s' : State)
    (block next : FullBlock) (hchain : Consecutive crypto.toBatchCrypto hs s s' block next)
    (commit lastCommit : Commit) (vals : ValidatorSet) (parts : PartSetHeader)
    (hcommit : verifyCommit crypto.toBatchCrypto s'.chainID s'.validators.toValidatorSet
      ⟨hs.header next.header, parts⟩ next.header.height commit = .ok ())
    (hbasic : commit.validateBasic = .ok ()) (cfg : Light.Config)
    (hcrypto : cfg.crypto = crypto.toBatchCrypto) (hhashes : cfg.hashes = hs.toHashes) (now : Time)
    (hexpired : Light.headerExpired ⟨block.header, lastCommit⟩ cfg.trustingPeriod now = false)
    (hfuture : next.header.time < now + cfg.maxClockDrift) :
    Light.verifyAdjacent cfg ⟨⟨block.header, lastCommit⟩, vals⟩
        ⟨⟨next.header, commit⟩, s'.validators.toValidatorSet⟩ now = .ok () ∧
      next.header.validatorsHash = block.header.nextValidatorsHash ∧
      block.header.time < next.header.time := by
  obtain ⟨hlink, hvalsHash, hheader⟩ := hchain.linked
  have hheight := eq_add_one hlink.height
  have hchainID : s'.chainID = block.header.chainID := by
    obtain ⟨_, _, hnext⟩ := hchain.acceptedNext
    exact (validateBlock_eq_ok hnext).chainID.symm.trans hlink.chainID
  have hlight := verifyCommitLight_of_verifyCommit hcommit
  obtain ⟨hcheight, hcid⟩ := verifyCommit_height_blockID hcommit
  refine ⟨verifyAdjacent_of_checks hheight hexpired ?_ hlink.validators ?_, hlink.validators,
    hlink.time⟩
  · constructor
    case basic =>
      simp only [SignedHeader.validateBasic, check_bind_eq_ok, mapError_eq_ok, reject_eq_ok,
        ne_eq, not_not]
      refine ⟨hheader, hbasic, hlink.chainID, hcheight.symm, ?_⟩
      rw [SignedHeader.hash, hhashes, ← hcid]
    case height_lt =>
      rw [Int64.lt_iff_toInt_lt]
      have := hlink.height
      dsimp only [SignedHeader.height]
      omega
    case time_lt => exact hlink.time
    case time_drift => exact hfuture
    case validators =>
      rw [hhashes]
      exact hvalsHash
  · rw [hcrypto, ← hchainID, ← hcid]
    exact hlight

/-! Blocks 5 and 6 of a chain with two validators, one of whom has more than two thirds of the
power. -/

def acceptingCrypto : CompleteBatchCrypto where
  toCrypto := sampleCrypto
  batchAdd := fun _ _ _ => .ok ()
  batchVerify := fun _ => (true, [])
  batch_sound := fun _ _ _ _ => rfl
  batchAdd_complete := fun _ _ _ _ => rfl
  batchVerify_complete := fun _ _ => rfl

def someHash : Bytes := List.replicate 32 7

def constantHashes : BlockHashes where
  header := fun _ => someHash
  validators := fun _ => someHash
  proposerPriority := fun _ => someHash
  commit := fun _ => someHash
  txs := fun _ => someHash
  evidence := fun _ => someHash
  params := fun _ => someHash
  evidenceSize := fun _ => 0

def unevenDoc : GenesisDoc := { sampleDoc with validators := [(sampleKey 1, 10), (sampleKey 2, 3)] }

def someBlockID : BlockID := ⟨someHash, ⟨1, someHash⟩⟩

def headerAt (height : Int64) (time : Time) (lastBlockID : BlockID) : Header :=
  ⟨blockProtocol, 1, [99], height, time, lastBlockID, someHash, someHash, someHash,
    someHash, someHash,
    [], [], someHash, List.replicate 20 1⟩

def voteOf (n : UInt8) : CommitSig := ⟨.commit, List.replicate 20 n, 10, [1]⟩

def stateBefore5 : State := (makeGenesisState sampleCrypto unevenDoc).toOption.getD .empty

def block5 : FullBlock := ⟨⟨headerAt 5 0 default, [], ⟨0, 0, default, []⟩⟩, [], none⟩

def stateBefore6 : State :=
  (executed sampleCrypto stateBefore5 someBlockID block5.header
    ⟨[], none, [], [], .zero⟩).toOption.getD .empty

def block6 : FullBlock :=
  ⟨⟨headerAt 6 10 someBlockID, [], ⟨5, 0, someBlockID, [voteOf 1, voteOf 2]⟩⟩, [], none⟩

/-- A commit for block 6 by the first validator, with the entry of the other one. -/
def commit6 (other : CommitSig) : Commit := ⟨6, 0, someBlockID, [voteOf 1, other]⟩

def absentWithAddress : CommitSig := ⟨.absent, [1], Time.zero, []⟩

def someConfig : Light.Config :=
  ⟨acceptingCrypto.toBatchCrypto, constantHashes.toHashes, 1000, 10, ⟨1, 3⟩⟩

theorem consecutive_blocks :
    Consecutive acceptingCrypto.toBatchCrypto constantHashes stateBefore5 stateBefore6 block5
      block6 := by
  constructor
  case accepted => exact ⟨false, 0, by decide +kernel⟩
  case applied => exact ⟨someBlockID, _, eq_ok_of_isSome (by decide +kernel)⟩
  case acceptedNext => exact ⟨false, 10, by decide +kernel⟩
  case initial => decide +kernel

/-- With an absent signature as it should be, the light client follows. -/
theorem light_client_follows_absent :
    Light.verifyAdjacent someConfig ⟨⟨block5.header, block6.lastCommit⟩, ⟨[], none, true⟩⟩
      ⟨⟨block6.header, commit6 .absent⟩, stateBefore6.validators.toValidatorSet⟩ 10 = .ok () :=
  (light_client_follows acceptingCrypto constantHashes stateBefore5 stateBefore6 block5 block6
    consecutive_blocks (commit6 .absent) block6.lastCommit ⟨[], none, true⟩ ⟨1, someHash⟩
    (by decide +kernel) (by decide +kernel) someConfig rfl rfl 10 (by decide +kernel)
    (by decide +kernel)).1

/-- `VerifyCommit` accepts a commit with an address in an absent signature, the light client does
not. -/
theorem light_client_rejects_malformed :
    Consecutive acceptingCrypto.toBatchCrypto constantHashes stateBefore5 stateBefore6
      block5 block6 ∧
    verifyCommit acceptingCrypto.toBatchCrypto stateBefore6.chainID
      stateBefore6.validators.toValidatorSet ⟨constantHashes.header block6.header, ⟨1, someHash⟩⟩
      block6.header.height (commit6 absentWithAddress) = .ok () ∧
    Light.headerExpired ⟨block5.header, block6.lastCommit⟩ someConfig.trustingPeriod 10 = false ∧
    block6.header.time < 10 + someConfig.maxClockDrift ∧
    Light.verifyAdjacent someConfig ⟨⟨block5.header, block6.lastCommit⟩, ⟨[], none, true⟩⟩
      ⟨⟨block6.header, commit6 absentWithAddress⟩, stateBefore6.validators.toValidatorSet⟩ 10 =
      .error (.invalidHeader ("untrustedHeader.ValidateBasic failed: invalid commit: " ++
        "wrong CommitSig #1: validator address is present")) :=
  ⟨consecutive_blocks, by decide +kernel, by decide +kernel, by decide +kernel, by decide +kernel⟩

end CelestiaCore.SM
