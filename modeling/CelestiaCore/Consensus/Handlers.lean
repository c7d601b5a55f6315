import CelestiaCore.Consensus.State

/-!
# Events of a consensus node

The votes a node adds and the transitions they cause, `handleMsg`, `handleTimeout` and
`handleTxsAvailable` of `consensus/state.go`, and the runs of a node over any sequence of events.
-/
namespace CelestiaCore.Consensus
open Wire

variable {β : Type}

inductive AddVoteFailure where
  | votes (e : AddVoteError)
  | publish
  | invalidValidatorIndex
  | invalidExtension
  | extensionRejected
  | unexpectedExtension
  deriving DecidableEq, Repr

/-- A precommit for the previous height, which arrives while the node waits for the next one. -/
def addLastPrecommit (env : Env β) (o : Oracle β) (vote : Vote) :
    Prog β (Bool × Option AddVoteFailure) := do
  let rs := (← get).rs
  if rs.step ≠ .newHeight then pure (false, none)
  else
    match rs.lastCommit with
    | none => pure (false, none)
    | some lastCommit =>
      match lastCommit.addVote env.crypto vote with
      | .error p => throw (.lastCommit p)
      | .ok (lastCommit, added, err) => do
        modify (State.mapRS fun rs => { rs with lastCommit := some lastCommit })
        let err := err.map fun e => AddVoteFailure.votes (.vote e)
        if added = false then pure (false, err)
        else if o.publishVoteFails then pure (true, some .publish)
        else do
          if env.config.skipTimeoutCommit = true ∧ lastCommit.hasAll = true then
            enterNewRound env o rs.height 0
          else pure ()
          pure (true, err)

/-- The checks of a vote's extension; `none` if the vote may be added. -/
def checkExtension (env : Env β) (o : Oracle β) (s : State β) (vote : Vote) :
    Except Panic (Option AddVoteFailure) :=
  if s.sm.voteExtensionsEnabled vote.height.toInt then
    if vote.type = .precommit ∧ vote.blockID.isZero = false ∧
        vote.validatorAddress ≠ (s.privValidatorPubKey.map env.crypto.address).getD [] then
      match s.sm.validators.1.getByIndex vote.validatorIndex.toInt with
      | none => .ok (some .invalidValidatorIndex)
      | some val =>
        match val.pubKey with
        | none => .error .nilPointer
        | some pk =>
          if env.crypto.verifySignature pk (voteExtensionSignBytes s.sm.chainID vote)
              vote.extensionSignature = false then .ok (some .invalidExtension)
          else if (o.verifyVoteExtension vote).isSome then .ok (some .extensionRejected)
          else .ok none
    else .ok none
  else if 0 < vote.extension.length ∨ 0 < vote.extensionSignature.length then
    .ok (some .unexpectedExtension)
  else .ok none

/-- A majority of prevotes unlocks a node locked on another block in an earlier round; the result
says whether `addVote` goes on. -/
def unlockOnPolka (env : Env β) (o : Oracle β) (voteRound : Int) (blockID : BlockID) :
    Prog β Bool := do
  let rs := (← get).rs
  if rs.lockedBlock.isSome = true ∧ rs.lockedRound < voteRound ∧ voteRound ≤ rs.round ∧
      blockMatchesBlockID env rs.lockedBlock rs.lockedBlockParts blockID = false then do
    unlock
    pure (!o.publishUnlockFails)
  else pure true

/-- A majority of prevotes of the current round makes the proposal block valid or replaces the parts
to collect; the result says whether `addVote` goes on. -/
def updateValidBlock (env : Env β) (o : Oracle β) (voteRound : Int) (blockID : BlockID) :
    Prog β Bool := do
  let rs := (← get).rs
  if blockID.hash.length ≠ 0 ∧ rs.validRound < voteRound ∧ voteRound = rs.round then do
    let partsMatch := hasHeader rs.proposalBlockParts blockID.partSetHeader
    if hashesTo env rs.proposalBlock blockID.hash = true ∧ partsMatch = true then
      modify (State.mapRS fun rs =>
        { rs with
          validRound := voteRound
          validBlock := rs.proposalBlock
          validBlockParts := rs.proposalBlockParts })
    else dropProposalBlock
    if partsMatch then pure () else collectParts blockID.partSetHeader
    pure (!o.publishValidBlockFails)
  else pure true

def afterPrevote (env : Env β) (o : Oracle β) (height voteRound : Int) : Prog β Unit := do
  let rs := (← get).rs
  let prevotes := rs.votes.prevotes voteRound
  if rs.round < voteRound ∧ hasTwoThirdsAny prevotes = true then
    enterNewRound env o height voteRound
  else if rs.round = voteRound ∧ .prevote ≤ rs.step then
    match twoThirdsMajority prevotes with
    | some blockID =>
      if rs.isProposalComplete = true ∨ blockID.hash.length = 0 then
        enterPrecommit env o height voteRound
      else if hasTwoThirdsAny prevotes then enterPrevoteWait env height voteRound
      else pure ()
    | none =>
      if hasTwoThirdsAny prevotes then enterPrevoteWait env height voteRound else pure ()
  else
    match rs.proposal with
    | some proposal =>
      if 0 ≤ proposal.polRound ∧ proposal.polRound.toInt = voteRound ∧
          rs.isProposalComplete = true then enterPrevote env o height rs.round
      else pure ()
    | none => pure ()

/-- What a majority of prevotes does to the locked and the valid block. -/
def onPolka (env : Env β) (o : Oracle β) (voteRound : Int) : Prog β Bool := do
  match twoThirdsMajority ((← get).rs.votes.prevotes voteRound) with
  | some blockID => do
    if ← unlockOnPolka env o voteRound blockID then updateValidBlock env o voteRound blockID
    else pure false
  | none => pure true

def onPrevote (env : Env β) (o : Oracle β) (height voteRound : Int) : Prog β Bool := do
  if ← onPolka env o voteRound then do
    afterPrevote env o height voteRound
    pure true
  else pure false

def onPrecommit (env : Env β) (o : Oracle β) (height voteRound : Int) : Prog β Unit := do
  let rs := (← get).rs
  let precommits := rs.votes.precommits voteRound
  match twoThirdsMajority precommits with
  | some blockID => do
    enterNewRound env o height voteRound
    enterPrecommit env o height voteRound
    if blockID.hash.length ≠ 0 then do
      enterCommit env o height voteRound
      if env.config.skipTimeoutCommit = true ∧ hasAll precommits = true then
        enterNewRound env o (← get).rs.height 0
      else pure ()
    else enterPrecommitWait env height voteRound
  | none =>
    if rs.round ≤ voteRound ∧ hasTwoThirdsAny precommits = true then do
      enterNewRound env o height voteRound
      enterPrecommitWait env height voteRound
    else pure ()

/-- The part of `addVote` for a vote of the current height that passed the extension checks. -/
def addCurrentVote (env : Env β) (o : Oracle β) (vote : Vote) (peerID : P2PID) :
    Prog β (Bool × Option AddVoteFailure) := do
  let s ← get
  let height := s.rs.height
  let (votes, result) := s.rs.votes.addVote env.crypto vote peerID
    (s.sm.voteExtensionsEnabled vote.height.toInt)
  modify (State.mapRS fun rs => { rs with votes := votes })
  match result with
  | .error p => throw (.votes p)
  | .ok (added, err) =>
    let err := err.map AddVoteFailure.votes
    if added = false then pure (false, err)
    else if o.publishVoteFails then pure (true, some .publish)
    else if vote.type = .prevote then do
      if ← onPrevote env o height vote.round.toInt then pure (true, err)
      else pure (true, some .publish)
    else if vote.type = .precommit then do
      onPrecommit env o height vote.round.toInt
      pure (true, err)
    else throw .unexpectedVoteType

/-- `addVote`: whether the vote was added, and the error returned. -/
def addVote (env : Env β) (o : Oracle β) (vote : Vote) (peerID : P2PID) :
    Prog β (Bool × Option AddVoteFailure) := do
  let s ← get
  if vote.height.toInt + 1 = s.rs.height ∧ vote.type = .precommit then
    addLastPrecommit env o vote
  else if vote.height.toInt ≠ s.rs.height then pure (false, none)
  else
    match checkExtension env o s vote with
    | .error p => throw p
    | .ok (some e) => pure (false, some e)
    | .ok none => addCurrentVote env o vote peerID

/-- `tryAddVote`, which reports conflicting votes of other validators to the evidence pool. -/
def tryAddVote (env : Env β) (o : Oracle β) (vote : Vote) (peerID : P2PID) : Prog β Unit := do
  match ← addVote env o vote peerID with
  | (_, some (.votes (.vote (.conflicting voteA voteB)))) => do
    match (← get).privValidatorPubKey with
    | none => pure ()
    | some pk =>
      if vote.validatorAddress = env.crypto.address pk then pure ()
      else modify fun s => { s with conflictingVotes := s.conflictingVotes ++ [(voteA, voteB)] }
  | _ => pure ()

def handleMsg (env : Env β) (o : Oracle β) (msg : Message) (peerID : P2PID) : Prog β Unit := do
  match msg with
  | .proposal proposal => setProposal env proposal
  | .blockPart height _ part => do
    let added ← addProposalBlockPart env height part
    if added = true ∧ (← get).rs.proposalBlockParts.any (·.isComplete) = true then
      handleCompleteProposal env o height.toInt
    else pure ()
  | .vote vote => tryAddVote env o vote peerID
  -- an unknown message type is logged
  | _ => pure ()

def handleTimeout (env : Env β) (o : Oracle β) (ti : TimeoutInfo) : Prog β Unit := do
  let rs := (← get).rs
  if ti.height ≠ rs.height ∨ ti.round < rs.round ∨ (ti.round = rs.round ∧ ti.step < rs.step) then
    pure ()
  else
    match ti.step with
    | .newHeight => enterNewRound env o ti.height 0
    | .newRound => enterPropose env o ti.height ti.round
    | .propose => enterPrevote env o ti.height ti.round
    | .prevoteWait => enterPrecommit env o ti.height ti.round
    | .precommitWait => do
      enterPrecommit env o ti.height ti.round
      enterNewRound env o ti.height (int32Wrap (ti.round + 1))
    | .prevote | .precommit | .commit => throw .invalidTimeoutStep

def handleTxsAvailable (env : Env β) (o : Oracle β) : Prog β Unit := do
  let s ← get
  if s.rs.round ≠ 0 then pure ()
  else
    match s.rs.step with
    | .newHeight =>
      if s.needProofBlock o s.rs.height then pure ()
      else
        scheduleTimeout (s.rs.startTime - o.now s.rs + 1000000) s.rs.height 0 .newRound
    | .newRound => enterPropose env o s.rs.height 0
    | _ => pure ()

/-- What can reach a node: a validated message of a peer, a part that was recovered, a message of
its own queue, a timeout, transactions, or a peer's claim of a majority. -/
inductive Event where
  | peer (msg : Message) (peerID : P2PID)
  | recovered (height : Int64) (round : Int32) (part : Part)
  | internal (i : Nat)
  | timeout (duration : Int) (height : Int64) (round : Int32) (step : RoundStepType)
  | txsAvailable
  | voteSetMaj23 (height : Int) (round : Int) (type : SignedMsgType) (peerID : P2PID)
    (blockID : BlockID)

/-- The handling of one event by the receive routine or, for the claim of a majority, by the
reactor. -/
def handle (env : Env β) (o : Oracle β) : Event → Prog β Unit
  | .peer msg peerID => if msg.isValid then handleMsg env o msg peerID else pure ()
  | .recovered height round part => handleMsg env o (.blockPart height round (some part)) []
  | .internal i => do
    match (← get).internalMsgQueue[i]? with
    | none => pure ()
    | some msg => do
      modify fun s => { s with internalMsgQueue := s.internalMsgQueue.eraseIdx i }
      if o.walWriteFails then throw .walWrite else handleMsg env o msg []
  | .timeout duration height round step =>
    handleTimeout env o ⟨duration, height.toInt, round.toInt, step⟩
  | .txsAvailable => handleTxsAvailable env o
  | .voteSetMaj23 height round type peerID blockID => do
    if (← get).rs.height = height ∧ 0 ≤ round ∧ blockID.validateBasic.isOk = true then
      modify (State.mapRS fun rs =>
        { rs with votes := (rs.votes.setPeerMaj23 round type peerID blockID).1 })
    else pure ()

/-- A node: its state, and the panic that stopped it, if any. -/
structure Node (β : Type) where
  state : State β
  halted : Option Panic

namespace Node

def start (env : Env β) (st : Start) : Node β := ⟨State.new env st, none⟩

/-- One event at a node. After a panic the receive routine has ended. -/
def step (env : Env β) (n : Node β) (input : Oracle β × Event) : Node β :=
  match n.halted with
  | some _ => n
  | none =>
    match (handle env input.1 input.2).run n.state with
    | .ok () s => ⟨s, none⟩
    | .error p s => ⟨s, some p⟩

def run (env : Env β) (st : Start) (inputs : List (Oracle β × Event)) : Node β :=
  inputs.foldl (step env) (start env st)

end Node

end CelestiaCore.Consensus
