import CelestiaCore.Consensus.HeightVoteSetRuns
import CelestiaCore.Consensus.Messages

/-!
# The state of a consensus node

`consensus/types/round_state.go` and the fields of `consensus/state.go` that its transitions use.
What a node asks of its surroundings while it handles one event is an `Oracle`. -/
namespace CelestiaCore.Consensus
open Wire

inductive RoundStepType where
  | newHeight
  | newRound
  | propose
  | prevote
  | prevoteWait
  | precommit
  | precommitWait
  | commit
  deriving DecidableEq, Repr

namespace RoundStepType

def toNat : RoundStepType → Nat
  | .newHeight => 1
  | .newRound => 2
  | .propose => 3
  | .prevote => 4
  | .prevoteWait => 5
  | .precommit => 6
  | .precommitWait => 7
  | .commit => 8

theorem toNat_injective : Function.Injective toNat := by
  intro a b h
  cases a <;> cases b <;> first | rfl | cases h

/-- Steps are compared as the numbers the source gives them. -/
instance : LinearOrder RoundStepType := LinearOrder.lift' toNat toNat_injective

theorem newHeight_le (a : RoundStepType) : .newHeight ≤ a := by
  cases a <;> decide

end RoundStepType

/-- Durations, in nanoseconds, that the application sets; 0 stands for the node's own. -/
structure Timeouts where
  propose : Int
  proposeDelta : Int
  prevote : Int
  prevoteDelta : Int
  precommit : Int
  precommitDelta : Int
  commit : Int
  deriving DecidableEq, Repr

structure ConsensusConfig where
  timeouts : Timeouts
  skipTimeoutCommit : Bool
  createEmptyBlocks : Bool
  createEmptyBlocksInterval : Int
  gossipDataEnabled : Bool
  deriving DecidableEq, Repr

namespace ConsensusConfig

def waitForTxs (c : ConsensusConfig) : Bool :=
  c.createEmptyBlocks = false ∨ 0 < c.createEmptyBlocksInterval

def commitWithCustomTimeout (c : ConsensusConfig) (t : Time) (custom : Int) : Time :=
  t + if custom = 0 then c.timeouts.commit else custom

end ConsensusConfig

/-- The chain state of `state/state.go` after the last block. -/
structure SMState where
  chainID : Bytes
  initialHeight : Int
  lastBlockHeight : Int
  validators : BoundedValidatorSet
  maxBytes : Int
  voteExtensionsEnableHeight : Int
  appHash : Bytes
  timeouts : Timeouts
  initialHeight_pos : 0 < initialHeight
  initialHeight_le : initialHeight ≤ maxInt64
  lastBlockHeight_nonneg : 0 ≤ lastBlockHeight
  lastBlockHeight_lt : lastBlockHeight < maxInt64

namespace SMState

/-- `VoteExtensionsEnabled` of a height of at least 1; it panics below. -/
def voteExtensionsEnabled (sm : SMState) (h : Int) : Bool :=
  sm.voteExtensionsEnableHeight ≠ 0 ∧ sm.voteExtensionsEnableHeight ≤ h

def nextHeight (sm : SMState) : Int :=
  if sm.lastBlockHeight + 1 = 1 then sm.initialHeight else sm.lastBlockHeight + 1

theorem nextHeight_pos (sm : SMState) : 0 < sm.nextHeight := by
  have h1 := sm.initialHeight_pos
  have h2 := sm.lastBlockHeight_nonneg
  unfold nextHeight
  split_ifs <;> omega

theorem nextHeight_le (sm : SMState) : sm.nextHeight ≤ maxInt64 := by
  have h1 := sm.initialHeight_le
  have h2 := sm.lastBlockHeight_lt
  unfold nextHeight
  split_ifs <;> omega

end SMState

structure TimeoutInfo where
  duration : Int
  height : Int
  round : Int
  step : RoundStepType
  deriving DecidableEq, Repr

structure RoundState (β : Type) where
  height : Int
  round : Int
  step : RoundStepType
  startTime : Time
  commitTime : Option Time
  validators : ValidatorSet
  proposal : Option Proposal
  proposalBlock : Option β
  proposalBlockParts : Option PartSet
  lockedRound : Int
  lockedBlock : Option β
  lockedBlockParts : Option PartSet
  validRound : Int
  validBlock : Option β
  validBlockParts : Option PartSet
  votes : HeightVoteSet
  commitRound : Int
  lastCommit : Option VoteSet
  triggeredTimeoutPrecommit : Bool

/-- A call of `signAddVote`: its arguments, the round argument of the `enterPrevote` or
`enterPrecommit` around it, and the round state. -/
structure SignCall (β : Type) where
  msgType : SignedMsgType
  blockID : BlockID
  round : Int
  rs : RoundState β

/-- A block that `finalizeCommit` goes on to save and apply. -/
structure Finalization (β : Type) where
  height : Int
  block : β
  parts : PartSet

/-- The fields of `State`, and the calls of `signAddVote`, the finalized blocks and the blocks
handed to the block store so far. -/
structure State (β : Type) where
  rs : RoundState β
  sm : SMState
  privValidatorPubKey : Option PubKey
  startedPrecommitSleep : Bool
  internalMsgQueue : List Message
  timeouts : List TimeoutInfo
  conflictingVotes : List (Vote × Vote)
  calls : List (SignCall β)
  finalized : List (Finalization β)
  saved : List (β × PartSet)

/-- What does not change while a node runs: its configuration, its keys and the code of blocks. -/
structure Env (β : Type) where
  config : ConsensusConfig
  crypto : Crypto
  digest : Merkle.Digest
  hasPrivValidator : Bool
  hash : β → Bytes
  height : β → Int
  time : β → Time
  /-- `proto.Unmarshal` followed by `BlockFromProto`. -/
  blockFromBytes : Bytes → Except String β
  length_hash : ∀ b, (hash b).length = 0 ∨ (hash b).length = hashSize

/-- A part set as `MakePartSet` returns it, with a header of at least one part. -/
abbrev MadePartSet := { ps : PartSet // ps.header.Complete }

/-- What the private validator writes into a vote it signs. -/
structure SignedVote where
  signature : Bytes
  timestamp : Time
  extensionSignature : Bytes

/-- The answers the environment gives while one event is handled. -/
structure Oracle (β : Type) where
  now : RoundState β → Time
  walFlushFails : Bool
  walWriteFails : Bool
  walEndHeightFails : Bool
  publishVoteFails : Bool
  publishUnlockFails : Bool
  publishValidBlockFails : Bool
  quit : Bool
  lastBlockAppHash : Int → Option Bytes
  blockStoreHeight : Int
  makePartSet : β → Except String MadePartSet
  createProposalBlock : Int → SMState → Bytes → Except String (Option (β × MadePartSet))
  proposeBlockFails : Bool
  signProposal : Bytes → Proposal → Except String Bytes
  signVote : Bytes → Vote → Except String SignedVote
  extendVote : Vote → Option β → SMState → Except String Bytes
  verifyVoteExtension : Vote → Option String
  validateBlock : SMState → β → Option String
  processProposal : β → Int → Except String Bool
  applyVerifiedBlock : SMState → BlockID → β → Except String SMState
  commitSizeMatches : SMState → β → Bool
  getPubKey : Except String PubKey

inductive Panic where
  | prevoteWaitWithoutTwoThirds
  | precommitWaitWithoutTwoThirds
  | polRound
  | runActionCommit
  | tryFinalizeCommitHeight
  | finalizeWithoutMajority
  | commitHeader
  | commitHash
  | formCommit
  | votes (p : HeightVoteSetPanic)
  | lastCommit (p : VoteSetPanic)
  | stateHeight
  | inconsistentHeight
  | inconsistentInitialHeight
  | emptyLastCommit
  | overflow
  | validators (e : String)
  | nilPointer
  | nilProposalBlock
  | signBytes
  | signing
  | extensionPresence
  | processProposal
  | invalidPolkaBlock
  | invalidCommittedBlock
  | walWrite
  | walEndHeight
  | applyBlock
  | commitSize
  | getBytes
  | invalidTimeoutStep
  | unexpectedVoteType
  deriving DecidableEq, Repr

/-- The assertions of the state machine about its own bookkeeping. -/
def Panic.isAssertion : Panic → Bool
  | .prevoteWaitWithoutTwoThirds => true
  | .precommitWaitWithoutTwoThirds => true
  | .polRound => true
  | .runActionCommit => true
  | .tryFinalizeCommitHeight => true
  | .finalizeWithoutMajority => true
  | .commitHeader => true
  | .commitHash => true
  | .formCommit => true
  | .votes .setRound => true
  | .votes .addRound => true
  | .votes (.voteSet .expectedNonConflicting) => true
  | .lastCommit .expectedNonConflicting => true
  | _ => false

/-- `Header` of a possibly nil part set. -/
def headerOf (parts : Option PartSet) : PartSetHeader :=
  match parts with
  | none => .zero
  | some ps => ps.header

def hasHeader (parts : Option PartSet) (header : PartSetHeader) : Bool :=
  parts.any (·.hasHeader header)

/-- `HashesTo` of a possibly nil block. -/
def hashesTo {β : Type} (env : Env β) (block : Option β) (hash : Bytes) : Bool :=
  hash.length ≠ 0 ∧ block.any (env.hash · = hash)

def blockMatchesBlockID {β : Type} (env : Env β) (block : Option β) (parts : Option PartSet)
    (blockID : BlockID) : Bool :=
  hashesTo env block blockID.hash ∧ hasHeader parts blockID.partSetHeader

namespace RoundState
variable {β : Type}

/-- The round state at the start of the height after `sm`. -/
def atHeight (sm : SMState) (lastCommit : Option VoteSet) (startTime : Time)
    (commitTime : Option Time) : RoundState β where
  height := sm.nextHeight
  round := 0
  step := .newHeight
  startTime := startTime
  commitTime := commitTime
  validators := sm.validators.1
  proposal := none
  proposalBlock := none
  proposalBlockParts := none
  lockedRound := -1
  lockedBlock := none
  lockedBlockParts := none
  validRound := -1
  validBlock := none
  validBlockParts := none
  votes := .new sm.chainID sm.nextHeight sm.validators (sm.voteExtensionsEnabled sm.nextHeight)
  commitRound := -1
  lastCommit := lastCommit
  triggeredTimeoutPrecommit := false

def isProposalComplete (rs : RoundState β) : Bool :=
  match rs.proposal with
  | none => false
  | some proposal =>
    rs.proposalBlock.isSome ∧
      (proposal.polRound < 0 ∨ hasTwoThirdsMajority (rs.votes.prevotes proposal.polRound.toInt))

end RoundState

/-- What `NewState` starts a node from: the chain state, the votes `reconstructLastCommit` finds,
and the key of the private validator. -/
structure Start where
  sm : SMState
  lastCommit : Option VoteSet
  privValidatorPubKey : Option PubKey
  now : Time
  accounts : ∀ vs, lastCommit = some vs → vs.Accounts
  lastCommit_isSome : 0 < sm.lastBlockHeight → lastCommit.isSome

/-- `NewState`, followed by the first `scheduleRound0` of `OnStart`. -/
def State.new {β : Type} (env : Env β) (st : Start) : State β :=
  let custom := if st.sm.lastBlockHeight = 0 then st.sm.timeouts.commit else 0
  let startTime := env.config.commitWithCustomTimeout st.now custom
  let lastCommit := if st.sm.lastBlockHeight = 0 then none else st.lastCommit
  { rs := .atHeight st.sm lastCommit startTime none
    sm := st.sm
    privValidatorPubKey := st.privValidatorPubKey
    startedPrecommitSleep := false
    internalMsgQueue := []
    timeouts := [⟨startTime - st.now, st.sm.nextHeight, 0, .newHeight⟩]
    conflictingVotes := []
    calls := []
    finalized := []
    saved := [] }

end CelestiaCore.Consensus
