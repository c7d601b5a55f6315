import CelestiaCore.Consensus.RoundState

/-!
# The consensus state machine

The transitions of `consensus/state.go`. A deferred function is the `finally` of its body. Logging,
metrics, events without an error path and the propagation reactor are left out.
-/
namespace CelestiaCore.Consensus
open Wire

variable {β : Type}

abbrev Prog (β α : Type) := EStateM Panic (State β) α

def int32Wrap (n : Int) : Int := n.bmod (2 ^ 32)

namespace State

def mapRS (f : RoundState β → RoundState β) (s : State β) : State β := { s with rs := f s.rs }

/-- `Propose`, `Prevote` and `Precommit`: the application's timeout or else the node's, plus the
delta of the round. -/
def roundTimeout (appTimeout appDelta timeout delta round : Int) : Int :=
  let base := if appTimeout = 0 then timeout else appTimeout
  let step := if appDelta = 0 then delta else appDelta
  wrap64 (base + step * round)

def proposeTimeout (env : Env β) (s : State β) (round : Int) : Int :=
  roundTimeout s.sm.timeouts.propose s.sm.timeouts.proposeDelta
    env.config.timeouts.propose env.config.timeouts.proposeDelta round

def prevoteTimeout (env : Env β) (s : State β) (round : Int) : Int :=
  roundTimeout s.sm.timeouts.prevote s.sm.timeouts.prevoteDelta
    env.config.timeouts.prevote env.config.timeouts.prevoteDelta round

def precommitTimeout (env : Env β) (s : State β) (round : Int) : Int :=
  roundTimeout s.sm.timeouts.precommit s.sm.timeouts.precommitDelta
    env.config.timeouts.precommit env.config.timeouts.precommitDelta round

def needProofBlock (o : Oracle β) (s : State β) (height : Int) : Bool :=
  if height = s.sm.initialHeight then true
  else
    match o.lastBlockAppHash (height - 1) with
    | none => true
    | some appHash => s.sm.appHash ≠ appHash

/-- `voteTime`: now, but after the time of the block the node is voting on. -/
def voteTime (env : Env β) (o : Oracle β) (rs : RoundState β) : Time :=
  let now := o.now rs
  let timeIota : Int := 1000000
  let minVoteTime := match rs.lockedBlock, rs.proposalBlock with
    | some b, _ => env.time b + timeIota
    | none, some b => env.time b + timeIota
    | none, none => now
  if minVoteTime < now then now else minVoteTime

end State

def updateRoundStep (round : Int) (step : RoundStepType) : Prog β Unit :=
  modify (.mapRS fun rs => { rs with round := round, step := step })

def scheduleTimeout (duration height round : Int) (step : RoundStepType) : Prog β Unit :=
  modify fun s => { s with timeouts := s.timeouts ++ [⟨duration, height, round, step⟩] }

def sendInternalMessage (m : Message) : Prog β Unit :=
  modify fun s => { s with internalMsgQueue := s.internalMsgQueue ++ [m] }

/-- `GetProposer`, with the nil pointer its callers do not expect. -/
def getProposer (vals : ValidatorSet) : Prog β Validator :=
  match vals.getProposer with
  | .error e => throw (.validators e)
  | .ok none => throw .nilPointer
  | .ok (some v) => pure v

def getProposerPubKey (vals : ValidatorSet) : Prog β PubKey := do
  let v ← getProposer vals
  match v.pubKey with
  | none => throw .nilPointer
  | some pk => pure pk

/-- `SignAndCheckVote`: the signed vote, an error the caller recovers from, or a panic. -/
def signAndCheckVote (o : Oracle β) (vote : Vote) (chainID : Bytes) (extensionsEnabled : Bool) :
    Prog β (Except String Vote) :=
  match o.signVote chainID vote with
  | .error e => pure (.error e)
  | .ok v =>
    let isPrecommit := vote.type = .precommit
    let isNil := vote.blockID.isZero
    let extSignature := 0 < v.extensionSignature.length
    if ¬isPrecommit ∧ extensionsEnabled = true then throw .signing
    else if extSignature ∧ (¬isPrecommit ∨ isNil = true) then throw .signing
    else if extensionsEnabled = true ∧ ¬extSignature ∧ isPrecommit ∧ isNil = false then
      throw .signing
    else
      pure (.ok { vote with
        signature := v.signature
        extensionSignature := if extensionsEnabled then v.extensionSignature else []
        timestamp := v.timestamp })

/-- The vote that `signVote` builds before it is extended and signed. -/
def unsignedVote (env : Env β) (o : Oracle β) (rs : RoundState β) (pk : PubKey)
    (msgType : SignedMsgType) (blockID : BlockID) : Vote :=
  let addr := env.crypto.address pk
  { type := msgType
    height := Int64.ofInt rs.height
    round := Int32.ofInt rs.round
    blockID := blockID
    timestamp := State.voteTime env o rs
    validatorAddress := addr
    validatorIndex := match rs.validators.getByAddress addr with
      | some (i, _) => Int32.ofInt i
      | none => -1
    signature := []
    extension := []
    extensionSignature := [] }

def signVote (env : Env β) (o : Oracle β) (msgType : SignedMsgType) (blockID : BlockID)
    (block : Option β) : Prog β (Except String Vote) := do
  let s ← get
  if o.walFlushFails then pure (.error "failed flushing WAL to disk")
  else
    match s.privValidatorPubKey with
    | none => pure (.error "pubkey is not set")
    | some pk =>
      let vote := unsignedVote env o s.rs pk msgType blockID
      let extEnabled := s.sm.voteExtensionsEnabled s.rs.height
      if msgType = .precommit ∧ blockID.isZero = false ∧ extEnabled = true then
        match o.extendVote vote block s.sm with
        | .error e => pure (.error e)
        | .ok ext =>
          signAndCheckVote o { vote with extension := ext } s.sm.chainID
            (extEnabled ∧ msgType = .precommit)
      else signAndCheckVote o vote s.sm.chainID (extEnabled ∧ msgType = .precommit)

/-- `signAddVote`, which also records the call. -/
def signAddVote (env : Env β) (o : Oracle β) (round : Int) (msgType : SignedMsgType)
    (blockID : BlockID) (block : Option β) : Prog β Unit := do
  modify fun s => { s with calls := s.calls ++ [⟨msgType, blockID, round, s.rs⟩] }
  let s ← get
  match env.hasPrivValidator, s.privValidatorPubKey with
  | true, some pk =>
    if s.rs.validators.hasAddress (env.crypto.address pk) then do
      match ← signVote env o msgType blockID block with
      | .error _ => pure ()
      | .ok vote =>
        let hasExt : Bool := 0 < vote.extensionSignature.length
        if vote.type = .precommit ∧ vote.blockID.isZero = false ∧
            hasExt ≠ s.sm.voteExtensionsEnabled s.rs.height then throw .extensionPresence
        else sendInternalMessage (.vote vote)
    else pure ()
  | _, _ => pure ()

/-- `defaultDoPrevote`. -/
def doPrevote (env : Env β) (o : Oracle β) (round : Int) : Prog β Unit := do
  let s ← get
  match s.rs.lockedBlock with
  | some b =>
    signAddVote env o round .prevote ⟨env.hash b, headerOf s.rs.lockedBlockParts⟩ none
  | none =>
    match s.rs.proposalBlock with
    | none => signAddVote env o round .prevote .zero none
    | some b =>
      match o.validateBlock s.sm b with
      | some _ => signAddVote env o round .prevote .zero none
      | none =>
        match o.processProposal b s.sm.initialHeight with
        | .error _ => throw .processProposal
        | .ok false => signAddVote env o round .prevote .zero none
        | .ok true =>
          signAddVote env o round .prevote ⟨env.hash b, headerOf s.rs.proposalBlockParts⟩ none

def enterPrevote (env : Env β) (o : Oracle β) (height round : Int) : Prog β Unit := do
  let rs := (← get).rs
  if rs.height ≠ height ∨ round < rs.round ∨ (rs.round = round ∧ .prevote ≤ rs.step) then pure ()
  else
    try doPrevote env o round
    finally updateRoundStep round .prevote

/-- The part of `defaultDecideProposal` after the choice of the block. -/
def proposeBlock (env : Env β) (o : Oracle β) (height round : Int) (block : β)
    (parts : PartSet) : Prog β Unit := do
  let s ← get
  let proposal : Proposal :=
    { type := .proposal
      height := Int64.ofInt height
      round := Int32.ofInt round
      polRound := Int32.ofInt s.rs.validRound
      blockID := ⟨env.hash block, parts.header⟩
      timestamp := o.now s.rs
      signature := [] }
  match o.signProposal s.sm.chainID proposal, s.privValidatorPubKey with
  | .ok signature, some pk =>
    let proposal := { proposal with signature := signature }
    match proposalSignBytes s.sm.chainID proposal with
    | none => throw .signBytes
    | some bytes =>
      if env.crypto.verifySignature pk bytes signature = false then pure ()
      else if o.proposeBlockFails = true ∧ env.config.gossipDataEnabled = false then pure ()
      else do
        sendInternalMessage (.proposal proposal)
        let sendPart := fun i => Message.blockPart (Int64.ofInt s.rs.height)
          (Int32.ofInt s.rs.round) (parts.getPart i)
        modify fun s =>
          { s with
            internalMsgQueue :=
              s.internalMsgQueue ++ (List.range parts.total.toNat).map sendPart }
  | _, _ => pure ()

/-- `createProposalBlock`, which needs a commit for the previous block. -/
def createProposalBlock (env : Env β) (o : Oracle β) (s : State β) :
    Except String (Option (β × MadePartSet)) :=
  if s.rs.height = s.sm.initialHeight ∨ hasTwoThirdsMajority s.rs.lastCommit = true then
    match s.privValidatorPubKey with
    | none => .error "propose step; empty priv validator public key"
    | some pk => o.createProposalBlock s.rs.height s.sm (env.crypto.address pk)
  else .error "propose step; cannot propose anything without commit for the previous block"

/-- `defaultDecideProposal`. -/
def decideProposal (env : Env β) (o : Oracle β) (height round : Int) : Prog β Unit := do
  let s ← get
  match s.rs.validBlock with
  | some block =>
    match o.makePartSet block with
    | .error _ => pure ()
    | .ok parts => proposeBlock env o height round block parts.1
  | none =>
    match createProposalBlock env o s with
    | .error _ => pure ()
    | .ok none => throw .nilProposalBlock
    | .ok (some (block, parts)) => proposeBlock env o height round block parts.1

/-- The body of `enterPropose` before its deferred function. -/
def proposeIfProposer (env : Env β) (o : Oracle β) (height round : Int) : Prog β Unit := do
  let s ← get
  scheduleTimeout (s.proposeTimeout env round) height round .propose
  match env.hasPrivValidator, s.privValidatorPubKey with
  | true, some pk =>
    let address := env.crypto.address pk
    if s.rs.validators.hasAddress address then do
      let proposer ← getProposer s.rs.validators
      if proposer.address = address then decideProposal env o height round else pure ()
    else pure ()
  | _, _ => pure ()

def enterPropose (env : Env β) (o : Oracle β) (height round : Int) : Prog β Unit := do
  let rs := (← get).rs
  if rs.height ≠ height ∨ round < rs.round ∨ (rs.round = round ∧ .propose ≤ rs.step) then pure ()
  else
    try proposeIfProposer env o height round
    finally
      updateRoundStep round .propose
      let rs := (← get).rs
      if rs.isProposalComplete then enterPrevote env o height rs.round else pure ()

/-- The validators of a later round, with `SafeSubInt32` of the rounds. -/
def rotateProposer (rs : RoundState β) (round : Int) : Prog β ValidatorSet :=
  if rs.round < round then
    if maxInt32 < round - rs.round then throw .overflow
    else
      match rs.validators.incrementProposerPriority (round - rs.round) with
      | .error e => throw (.validators e)
      | .ok vals => pure vals
  else pure rs.validators

/-- `Votes.SetRound(SafeAddInt32(round, 1))`. -/
def trackNextRound (round : Int) : Prog β Unit := do
  if round = maxInt32 then throw .overflow
  else
    match (← get).rs.votes.setRound (round + 1) with
    | .error p => throw (.votes p)
    | .ok votes =>
      modify (.mapRS fun rs =>
        { rs with votes := votes, triggeredTimeoutPrecommit := false })

/-- The proposal of an earlier round is dropped; in round 0 there is none. -/
def resetProposal (round : Int) : Prog β Unit :=
  if round ≠ 0 then
    modify (.mapRS fun rs =>
      { rs with proposal := none, proposalBlock := none, proposalBlockParts := none })
  else pure ()

/-- The part of `enterNewRound` that sets up the round. -/
def setUpRound (round : Int) : Prog β Unit := do
  let validators ← rotateProposer (← get).rs round
  updateRoundStep round .newRound
  modify (.mapRS fun rs => { rs with validators := validators })
  let _ ← getProposerPubKey validators
  resetProposal round
  trackNextRound round

def enterNewRound (env : Env β) (o : Oracle β) (height round : Int) : Prog β Unit := do
  let rs := (← get).rs
  if rs.height ≠ height ∨ round < rs.round ∨ (rs.round = round ∧ rs.step ≠ .newHeight) then pure ()
  else do
    setUpRound round
    let s ← get
    if env.config.waitForTxs = true ∧ round = 0 ∧ s.needProofBlock o height = false then
      if 0 < env.config.createEmptyBlocksInterval then
        scheduleTimeout env.config.createEmptyBlocksInterval height round .newRound
      else pure ()
    else enterPropose env o height round

def enterPrevoteWait (env : Env β) (height round : Int) : Prog β Unit := do
  let s ← get
  let rs := s.rs
  if rs.height ≠ height ∨ round < rs.round ∨ (rs.round = round ∧ .prevoteWait ≤ rs.step) then
    pure ()
  else if hasTwoThirdsAny (rs.votes.prevotes round) = false then throw .prevoteWaitWithoutTwoThirds
  else do
    scheduleTimeout (s.prevoteTimeout env round) height round .prevoteWait
    updateRoundStep round .prevoteWait

def unlock : Prog β Unit :=
  modify (.mapRS fun rs =>
    { rs with lockedRound := -1, lockedBlock := none, lockedBlockParts := none })

def collectParts (header : PartSetHeader) : Prog β Unit :=
  modify (.mapRS fun rs =>
    { rs with proposalBlockParts := some (.fromHeader header blockPartSizeBytes) })

def dropProposalBlock : Prog β Unit :=
  modify (.mapRS fun rs => { rs with proposalBlock := none })

/-- The body of `enterPrecommit` before its deferred function. -/
def doPrecommit (env : Env β) (o : Oracle β) (round : Int) : Prog β Unit := do
  let s ← get
  let rs := s.rs
  match twoThirdsMajority (rs.votes.prevotes round) with
  | none => signAddVote env o round .precommit .zero none
  | some blockID =>
    if rs.votes.polInfo.1 < round then throw .polRound
    else if blockID.hash.length = 0 then do
      if rs.lockedBlock.isSome then unlock else pure ()
      signAddVote env o round .precommit .zero none
    else if blockMatchesBlockID env rs.lockedBlock rs.lockedBlockParts blockID then do
      modify (.mapRS fun rs => { rs with lockedRound := round })
      signAddVote env o round .precommit blockID rs.lockedBlock
    else if blockMatchesBlockID env rs.proposalBlock rs.proposalBlockParts blockID then
      if rs.proposalBlock.any (o.validateBlock s.sm · |>.isSome) then throw .invalidPolkaBlock
      else do
        modify (.mapRS fun rs =>
          { rs with
            lockedRound := round
            lockedBlock := rs.proposalBlock
            lockedBlockParts := rs.proposalBlockParts })
        signAddVote env o round .precommit blockID rs.proposalBlock
    else do
      unlock
      if hasHeader rs.proposalBlockParts blockID.partSetHeader then pure ()
      else do
        dropProposalBlock
        collectParts blockID.partSetHeader
      signAddVote env o round .precommit .zero none

/-- `enterPrecommit`. The sleep before the vote sets a flag that is only left set when the node
quits meanwhile. -/
def enterPrecommit (env : Env β) (o : Oracle β) (height round : Int) : Prog β Unit := do
  let s ← get
  let rs := s.rs
  if rs.height ≠ height ∨ round < rs.round ∨ (rs.round = round ∧ .precommit ≤ rs.step) then
    pure ()
  else if s.startedPrecommitSleep then pure ()
  else if o.quit then modify fun s => { s with startedPrecommitSleep := true }
  else
    try doPrecommit env o round
    finally updateRoundStep round .precommit

def enterPrecommitWait (env : Env β) (height round : Int) : Prog β Unit := do
  let s ← get
  let rs := s.rs
  if rs.height ≠ height ∨ round < rs.round ∨
      (rs.round = round ∧ rs.triggeredTimeoutPrecommit = true) then pure ()
  else if hasTwoThirdsAny (rs.votes.precommits round) = false then
    throw .precommitWaitWithoutTwoThirds
  else do
    scheduleTimeout (s.precommitTimeout env round) height round .precommitWait
    modify (.mapRS fun rs => { rs with triggeredTimeoutPrecommit := true })
    updateRoundStep round .precommitWait

def nextLastCommit (rs : RoundState β) (sm : SMState) : Prog β (Option VoteSet) :=
  if sm.lastBlockHeight = 0 then pure none
  else if -1 < rs.commitRound then
    if hasTwoThirdsMajority (rs.votes.precommits rs.commitRound) then
      pure (rs.votes.precommits rs.commitRound)
    else throw .formCommit
  else if rs.lastCommit.isSome then pure rs.lastCommit
  else throw .emptyLastCommit

def updateToState (env : Env β) (o : Oracle β) (sm : SMState) : Prog β Unit := do
  let s ← get
  let rs := s.rs
  if -1 < rs.commitRound ∧ 0 < rs.height ∧ rs.height ≠ sm.lastBlockHeight then throw .stateHeight
  else if 0 < s.sm.lastBlockHeight ∧ s.sm.lastBlockHeight + 1 ≠ rs.height then
    throw .inconsistentHeight
  else if 0 < s.sm.lastBlockHeight ∧ rs.height = s.sm.initialHeight then
    throw .inconsistentInitialHeight
  else if sm.lastBlockHeight ≤ s.sm.lastBlockHeight then pure ()
  else do
    let lastCommit ← nextLastCommit rs sm
    let custom := if sm.lastBlockHeight = 0 then sm.timeouts.commit else s.sm.timeouts.commit
    let startTime := env.config.commitWithCustomTimeout (rs.commitTime.getD (o.now rs)) custom
    modify fun s => { s with rs := .atHeight sm lastCommit startTime rs.commitTime, sm := sm }

def updatePrivValidatorPubKey (env : Env β) (o : Oracle β) : Prog β Unit :=
  match env.hasPrivValidator, o.getPubKey with
  | true, .ok pk => modify fun s => { s with privValidatorPubKey := some pk }
  | _, _ => pure ()

def scheduleRound0 (o : Oracle β) : Prog β Unit := do
  let rs := (← get).rs
  scheduleTimeout (rs.startTime - o.now rs) rs.height 0 .newHeight

/-- Hands the block to the block store, unless the store already has it. -/
def saveBlock (env : Env β) (o : Oracle β) (block : β) (parts : PartSet) : Prog β Unit :=
  if o.blockStoreHeight < env.height block then
    modify fun s => { s with saved := s.saved ++ [(block, parts)] }
  else pure ()

/-- The part of `finalizeCommit` after the block was saved. -/
def applyVerifiedBlock (env : Env β) (o : Oracle β) (block : β) (parts : PartSet) :
    Prog β Unit := do
  let s ← get
  if o.walEndHeightFails then throw .walEndHeight
  else
    match o.applyVerifiedBlock s.sm ⟨env.hash block, parts.header⟩ block with
    | .error _ => throw .applyBlock
    | .ok sm =>
      if o.commitSizeMatches s.sm block = false then throw .commitSize
      else do
        updateToState env o sm
        updatePrivValidatorPubKey env o
        scheduleRound0 o

/-- The part of `finalizeCommit` after the checks of the committed block, which also records that
the block was finalized. -/
def applyBlock (env : Env β) (o : Oracle β) (block : β) (parts : PartSet) : Prog β Unit := do
  modify fun s => { s with finalized := s.finalized ++ [⟨s.rs.height, block, parts⟩] }
  saveBlock env o block parts
  applyVerifiedBlock env o block parts

def finalizeCommit (env : Env β) (o : Oracle β) (height : Int) : Prog β Unit := do
  let s ← get
  let rs := s.rs
  if rs.height ≠ height ∨ rs.step ≠ .commit then pure ()
  else
    match twoThirdsMajority (rs.votes.precommits rs.commitRound) with
    | none => throw .finalizeWithoutMajority
    | some blockID =>
      if hasHeader rs.proposalBlockParts blockID.partSetHeader = false then throw .commitHeader
      else if hashesTo env rs.proposalBlock blockID.hash = false then throw .commitHash
      else
        match rs.proposalBlock, rs.proposalBlockParts with
        | some block, some parts =>
          match o.validateBlock s.sm block with
          | some _ => throw .invalidCommittedBlock
          | none => applyBlock env o block parts
        | _, _ => throw .nilPointer

def tryFinalizeCommit (env : Env β) (o : Oracle β) (height : Int) : Prog β Unit := do
  let rs := (← get).rs
  if rs.height ≠ height then throw .tryFinalizeCommitHeight
  else
    match twoThirdsMajority (rs.votes.precommits rs.commitRound) with
    | none => pure ()
    | some blockID =>
      if blockID.hash.length = 0 then pure ()
      else if hashesTo env rs.proposalBlock blockID.hash = false then pure ()
      else if hasHeader rs.proposalBlockParts blockID.partSetHeader = false ∨
          rs.proposalBlockParts.any (·.isComplete) = false then pure ()
      else finalizeCommit env o height

/-- The locked block, if it is the committed one, becomes the proposal block. -/
def promoteLockedBlock (env : Env β) (blockID : BlockID) : Prog β Unit := do
  let rs := (← get).rs
  if blockMatchesBlockID env rs.lockedBlock rs.lockedBlockParts blockID then
    modify (.mapRS fun rs =>
      { rs with proposalBlock := rs.lockedBlock, proposalBlockParts := rs.lockedBlockParts })
  else pure ()

/-- A proposal block that is not the committed one is dropped, and so are its parts. -/
def awaitCommittedBlock (env : Env β) (blockID : BlockID) : Prog β Unit := do
  let rs := (← get).rs
  if blockMatchesBlockID env rs.proposalBlock rs.proposalBlockParts blockID then pure ()
  else do
    dropProposalBlock
    if hasHeader rs.proposalBlockParts blockID.partSetHeader then pure ()
    else collectParts blockID.partSetHeader

/-- The body of `enterCommit` before its deferred function. -/
def prepareCommit (env : Env β) (commitRound : Int) : Prog β Unit := do
  let rs := (← get).rs
  match twoThirdsMajority (rs.votes.precommits commitRound) with
  | none => throw .runActionCommit
  | some blockID => do
    promoteLockedBlock env blockID
    awaitCommittedBlock env blockID

def enterCommit (env : Env β) (o : Oracle β) (height commitRound : Int) : Prog β Unit := do
  let rs := (← get).rs
  if rs.height ≠ height ∨ .commit ≤ rs.step then pure ()
  else
    try prepareCommit env commitRound
    finally
      modify (.mapRS fun rs =>
        { rs with
          step := .commit
          commitRound := commitRound
          commitTime := some (o.now rs) })
      tryFinalizeCommit env o height

def State.maxBlockBytes (s : State β) : Int :=
  if s.sm.maxBytes = -1 then 128 * 1024 * 1024 else s.sm.maxBytes

/-- `defaultSetProposal`. -/
def setProposal (env : Env β) (proposal : Proposal) : Prog β Unit := do
  let s ← get
  let rs := s.rs
  if rs.proposal.isSome then pure ()
  else if proposal.height.toInt ≠ rs.height ∨ proposal.round.toInt ≠ rs.round then pure ()
  else if proposal.polRound < -1 ∨ (0 ≤ proposal.polRound ∧ proposal.round ≤ proposal.polRound) then
    pure ()
  else do
    let pubKey ← getProposerPubKey rs.validators
    match proposalSignBytes s.sm.chainID proposal with
    | none => throw .signBytes
    | some bytes =>
      if env.crypto.verifySignature pubKey bytes proposal.signature = false then pure ()
      else if (s.maxBlockBytes - 1).tdiv blockPartSizeBytes + 1 <
          proposal.blockID.partSetHeader.total.toNat then pure ()
      else
        modify (.mapRS fun rs =>
          { rs with
            proposal := some proposal
            proposalBlockParts := rs.proposalBlockParts.or
              (some (.fromHeader proposal.blockID.partSetHeader blockPartSizeBytes)) })

/-- `addProposalBlockPart`: whether the part was added. -/
def addProposalBlockPart (env : Env β) (height : Int64) (part : Option Part) : Prog β Bool := do
  let s ← get
  if s.rs.height ≠ height.toInt then pure false
  else
    match s.rs.proposalBlockParts with
    | none => pure false
    | some parts => do
      let (parts, result) := parts.addPart env.digest part
      modify (.mapRS fun rs => { rs with proposalBlockParts := some parts })
      match result with
      | .error _ => pure false
      | .ok added =>
        if s.maxBlockBytes < parts.byteSize then pure added
        else if added = true ∧ parts.isComplete = true then
          match parts.getBytes with
          | none => throw .getBytes
          | some bz =>
            match env.blockFromBytes bz with
            | .error _ => pure added
            | .ok block => do
              modify (.mapRS fun rs => { rs with proposalBlock := some block })
              pure added
        else pure added

/-- A completed proposal block with a majority of prevotes becomes the valid block. -/
def markValidBlock (env : Env β) (majority : Option BlockID) : Prog β Unit := do
  let rs := (← get).rs
  if majority.any (fun blockID => blockID.isZero = false ∧
      blockMatchesBlockID env rs.proposalBlock rs.proposalBlockParts blockID) ∧
      rs.validRound < rs.round then
    modify (.mapRS fun rs =>
      { rs with
        validRound := rs.round
        validBlock := rs.proposalBlock
        validBlockParts := rs.proposalBlockParts })
  else pure ()

def handleCompleteProposal (env : Env β) (o : Oracle β) (blockHeight : Int) : Prog β Unit := do
  let rs := (← get).rs
  let majority := twoThirdsMajority (rs.votes.prevotes rs.round)
  markValidBlock env majority
  let rs := (← get).rs
  if rs.step ≤ .propose ∧ rs.isProposalComplete = true then do
    enterPrevote env o blockHeight rs.round
    if majority.isSome then enterPrecommit env o blockHeight (← get).rs.round else pure ()
  else if rs.step = .commit then tryFinalizeCommit env o blockHeight
  else pure ()

end CelestiaCore.Consensus
