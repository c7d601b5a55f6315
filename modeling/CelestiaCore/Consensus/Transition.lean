import CelestiaCore.Consensus.Handlers
import CelestiaCore.Program.Runs

/-!
# The steps of a consensus node

What a node does while it handles an event, as a relation between states. An invariant needs to be
checked against these steps alone.
-/
namespace CelestiaCore.Consensus
open Wire Relation Program

variable {β : Type}

/-- What the steps of an event depend on: the steps a timeout may enter ahead of the node's round,
the messages it handles, and whether it may leave the commit step. -/
structure Policy where
  ahead : RoundStepType → Prop
  handles : Message → Prop
  leaves : Prop

/-- The policy lets a timeout enter a step of a round ahead of the node's. -/
def Policy.Ahead (P : Policy) (step : RoundStepType) (r : Int) : Prop :=
  P.ahead step ∧ r ≤ maxInt32

def PrevoteChoice (env : Env β) (rs : RoundState β) (id : BlockID) : Prop :=
  match rs.lockedBlock with
  | some b => id = ⟨env.hash b, headerOf rs.lockedBlockParts⟩
  | none => id = .zero ∨
    ∃ b, rs.proposalBlock = some b ∧ id = ⟨env.hash b, headerOf rs.proposalBlockParts⟩

/-- The round state a node precommits in and what it precommits, if it gets that far. -/
inductive PrecommitChoice (env : Env β) (rs : RoundState β) (r : Int) :
    RoundState β → Option BlockID → Prop
  | stopped : PrecommitChoice env rs r rs none
  | nil : PrecommitChoice env rs r rs (some .zero)
  | unlock {id : BlockID} (hmaj : twoThirdsMajority (rs.votes.prevotes r) = some id)
      (hother : blockMatchesBlockID env rs.lockedBlock rs.lockedBlockParts id = false) :
      PrecommitChoice env rs r
        { rs with lockedRound := -1, lockedBlock := none, lockedBlockParts := none } (some .zero)
  | await {id : BlockID} (hmaj : twoThirdsMajority (rs.votes.prevotes r) = some id)
      (hother : blockMatchesBlockID env rs.lockedBlock rs.lockedBlockParts id = false)
      (hempty : id.hash.length ≠ 0) :
      PrecommitChoice env rs r
        { rs with
          lockedRound := -1
          lockedBlock := none
          lockedBlockParts := none
          proposalBlock := none
          proposalBlockParts := some (.fromHeader id.partSetHeader blockPartSizeBytes) }
        (some .zero)
  | relock {id : BlockID} (hmaj : twoThirdsMajority (rs.votes.prevotes r) = some id)
      (hmatch : blockMatchesBlockID env rs.lockedBlock rs.lockedBlockParts id = true) :
      PrecommitChoice env rs r { rs with lockedRound := r } (some id)
  | lock {id : BlockID} (hmaj : twoThirdsMajority (rs.votes.prevotes r) = some id)
      (hother : blockMatchesBlockID env rs.lockedBlock rs.lockedBlockParts id = false)
      (hmatch : blockMatchesBlockID env rs.proposalBlock rs.proposalBlockParts id = true) :
      PrecommitChoice env rs r
        { rs with
          lockedRound := r
          lockedBlock := rs.proposalBlock
          lockedBlockParts := rs.proposalBlockParts } (some id)

/-- The calls of `signAddVote` and the own votes sent that go with a choice. -/
def castVote (s : State β) (type : SignedMsgType) (id : Option BlockID) (r : Int)
    (rs : RoundState β) (votes : List Vote) : State β :=
  { s with
    calls := s.calls ++ (id.map fun id => ⟨type, id, r, rs⟩).toList
    internalMsgQueue := s.internalMsgQueue ++ votes.map .vote }

def Cast (rs : RoundState β) (id : Option BlockID) (votes : List Vote) : Prop :=
  ∀ v ∈ votes, id = some v.blockID ∧ v.round = Int32.ofInt rs.round

inductive Transition (env : Env β) (P : Policy) : State β → State β → Prop
  | schedule {s} (ti : TimeoutInfo) (hheight : ti.height = s.rs.height)
      (hround : ti.round ≤ s.rs.round ∨ ti.round = 0 ∨ P.Ahead .propose ti.round) :
      Transition env P s { s with timeouts := s.timeouts ++ [ti] }
  | send {s} (msgs : List Message) (hmsgs : ∀ m ∈ msgs, m.WellFormed ∧ ∀ v, m ≠ .vote v) :
      Transition env P s { s with internalMsgQueue := s.internalMsgQueue ++ msgs }
  | take {s} (i : Nat) :
      Transition env P s { s with internalMsgQueue := s.internalMsgQueue.eraseIdx i }
  | setLocal {s} (pk : Option PubKey) (sleep : Bool) (conflicts : List (Vote × Vote)) :
      Transition env P s
        { s with
          privValidatorPubKey := pk
          startedPrecommitSleep := sleep
          conflictingVotes := conflicts }
  | newRound {s} (r : Int) (vals : ValidatorSet) (votes : HeightVoteSet)
      (hround : s.rs.round ≤ r) (hmax : r ≤ maxInt32)
      (hstep : s.rs.round = r → s.rs.step = .newHeight)
      (hleave : 0 < r → s.rs.step = .commit → P.leaves)
      (hvotes : s.rs.votes.setRound (r + 1) = .ok votes) :
      Transition env P s (s.mapRS fun rs =>
        { rs with
          round := r
          step := .newRound
          validators := vals
          proposal := if r = 0 then rs.proposal else none
          proposalBlock := if r = 0 then rs.proposalBlock else none
          proposalBlockParts := if r = 0 then rs.proposalBlockParts else none
          votes := votes
          triggeredTimeoutPrecommit := false })
  | propose {s} (r : Int) (hround : s.rs.round ≤ r)
      (hstep : s.rs.round = r → s.rs.step < .propose)
      (hahead : r ≤ s.rs.round ∨ P.Ahead .propose r) :
      Transition env P s (s.mapRS fun rs => { rs with round := r, step := .propose })
  | prevote {s} (r : Int) (id : Option BlockID) (votes : List Vote) (hround : s.rs.round ≤ r)
      (hstep : s.rs.round = r → s.rs.step < .prevote)
      (hahead : r ≤ s.rs.round ∨ P.Ahead .prevote r)
      (hid : ∀ i, id = some i → PrevoteChoice env s.rs i) (hcast : Cast s.rs id votes) :
      Transition env P s
        ((castVote s .prevote id r s.rs votes).mapRS fun rs =>
          { rs with round := r, step := .prevote })
  | prevoteWait {s} (hstep : s.rs.step < .prevoteWait) :
      Transition env P s (s.mapRS fun rs => { rs with step := .prevoteWait })
  | precommit {s} (r : Int) (rs' : RoundState β) (id : Option BlockID) (votes : List Vote)
      (hround : s.rs.round ≤ r) (hstep : s.rs.round = r → s.rs.step < .precommit)
      (hahead : r ≤ s.rs.round ∨ P.Ahead .precommit r) (hid : PrecommitChoice env s.rs r rs' id)
      (hcast : Cast s.rs id votes) :
      Transition env P s
        ((castVote s .precommit id r rs' votes).mapRS fun _ =>
          { rs' with round := r, step := .precommit })
  | precommitWait {s} (hleave : s.rs.step = .commit → P.leaves) :
      Transition env P s (s.mapRS fun rs =>
        { rs with triggeredTimeoutPrecommit := true, step := .precommitWait })
  | commit {s} (r : Int) (t : Option Time) (id : BlockID) (hround : 0 ≤ r)
      (hmaj : twoThirdsMajority (s.rs.votes.precommits r) = some id)
      (hstep : s.rs.step < .commit) :
      Transition env P s (s.mapRS fun rs =>
        { rs with step := .commit, commitRound := r, commitTime := t })
  | unlock {s} (r : Int) (id : BlockID)
      (hmaj : twoThirdsMajority (s.rs.votes.prevotes r) = some id)
      (hother : blockMatchesBlockID env s.rs.lockedBlock s.rs.lockedBlockParts id = false)
      (hlocked : s.rs.lockedRound < r) (hround : r ≤ s.rs.round) :
      Transition env P s (s.mapRS fun rs =>
        { rs with lockedRound := -1, lockedBlock := none, lockedBlockParts := none })
  | dropBlock {s} : Transition env P s (s.mapRS fun rs => { rs with proposalBlock := none })
  | collectParts {s} (id : BlockID) (hnone : s.rs.proposalBlock = none) (hid : id.hash.length ≠ 0)
      (hmaj : ∃ r t, t.isVoteTypeValid = true ∧
        twoThirdsMajority (s.rs.votes.getVoteSet r t) = some id) :
      Transition env P s (s.mapRS fun rs =>
        { rs with proposalBlockParts := some (.fromHeader id.partSetHeader blockPartSizeBytes) })
  | promote {s} :
      Transition env P s (s.mapRS fun rs =>
        { rs with proposalBlock := rs.lockedBlock, proposalBlockParts := rs.lockedBlockParts })
  | setValid {s} (r : Int) :
      Transition env P s (s.mapRS fun rs =>
        { rs with
          validRound := r
          validBlock := rs.proposalBlock
          validBlockParts := rs.proposalBlockParts })
  | setProposal {s} (p : Proposal) (hp : P.handles (.proposal p)) :
      Transition env P s (s.mapRS fun rs =>
        { rs with
          proposal := some p
          proposalBlockParts := rs.proposalBlockParts.or
            (some (.fromHeader p.blockID.partSetHeader blockPartSizeBytes)) })
  | addPart {s} (parts : PartSet) (part : Option Part)
      (hparts : s.rs.proposalBlockParts = some parts) :
      Transition env P s (s.mapRS fun rs =>
        { rs with proposalBlockParts := some (parts.addPart env.digest part).1 })
  | decode {s} (parts : PartSet) (bz : Bytes) (b : β)
      (hparts : s.rs.proposalBlockParts = some parts) (hcomplete : parts.isComplete = true)
      (hbytes : parts.getBytes = some bz) (hblock : env.blockFromBytes bz = .ok b) :
      Transition env P s (s.mapRS fun rs => { rs with proposalBlock := some b })
  | addVote {s} (v : Vote) (peerID : P2PID) (ext : Bool) (hv : P.handles (.vote v)) :
      Transition env P s (s.mapRS fun rs =>
        { rs with votes := (rs.votes.addVote env.crypto v peerID ext).1 })
  | addLastVote {s} (v : Vote) (vs vs' : VoteSet) (added : Bool) (err : Option VoteError)
      (hvs : s.rs.lastCommit = some vs) (hadd : vs.addVote env.crypto v = .ok (vs', added, err)) :
      Transition env P s (s.mapRS fun rs => { rs with lastCommit := some vs' })
  | claimMajority {s} (r : Int) (t : SignedMsgType) (peerID : P2PID) (id : BlockID) :
      Transition env P s (s.mapRS fun rs =>
        { rs with votes := (rs.votes.setPeerMaj23 r t peerID id).1 })
  | finalize {s} (b : β) (parts : PartSet) (id : BlockID) (hstep : s.rs.step = .commit)
      (hmaj : twoThirdsMajority (s.rs.votes.precommits s.rs.commitRound) = some id)
      (hblock : s.rs.proposalBlock = some b) (hparts : s.rs.proposalBlockParts = some parts)
      (hhash : env.hash b = id.hash) (hnonzero : id.hash.length ≠ 0)
      (hheader : parts.header = id.partSetHeader) :
      Transition env P s { s with finalized := s.finalized ++ [⟨s.rs.height, b, parts⟩] }
  | save {s} (b : β) (parts : PartSet) (hblock : s.rs.proposalBlock = some b)
      (hparts : s.rs.proposalBlockParts = some parts) :
      Transition env P s { s with saved := s.saved ++ [(b, parts)] }
  | newHeight {s} (sm : SMState) (lastCommit : Option VoteSet) (startTime : Time)
      (hstep : s.rs.step = .commit)
      (hheight : -1 < s.rs.commitRound → 0 < s.rs.height → s.rs.height = sm.lastBlockHeight)
      (hlast : ∀ vs, lastCommit = some vs →
        s.rs.votes.precommits s.rs.commitRound = some vs ∨ s.rs.lastCommit = some vs) :
      Transition env P s
        { s with rs := .atHeight sm lastCommit startTime s.rs.commitTime, sm := sm }

/-- A step to a new round that a panic interrupted before the vote sets of the next round were
set up. -/
inductive Interrupted (P : Policy) : State β → State β → Prop
  | newRound {s} (r : Int) (vals : ValidatorSet) (reset : Bool) (hround : s.rs.round ≤ r)
      (hmax : r ≤ maxInt32) (hstep : s.rs.round = r → s.rs.step = .newHeight)
      (hleave : 0 < r → s.rs.step = .commit → P.leaves) :
      Interrupted P s (s.mapRS fun rs =>
        { rs with
          round := r
          step := .newRound
          validators := vals
          proposal := if reset then none else rs.proposal
          proposalBlock := if reset then none else rs.proposalBlock
          proposalBlockParts := if reset then none else rs.proposalBlockParts })

/-- The states in which the code can panic: in any state on what it was handed, and on its own
bookkeeping only as stated. -/
inductive Fault (env : Env β) (P : Policy) (s : State β) : Panic → Prop
  | foreign {p : Panic} (h : p.isAssertion = false) : Fault env P s p
  | polRound (r : Int) (id : BlockID) (hround : s.rs.round ≤ r)
      (hahead : r ≤ s.rs.round ∨ P.Ahead .precommit r)
      (hmaj : twoThirdsMajority (s.rs.votes.prevotes r) = some id)
      (hpol : s.rs.votes.polInfo.1 < r) : Fault env P s .polRound
  | setRound (r : Int) (p : HeightVoteSetPanic) (hround : s.rs.round ≤ r)
      (h : s.rs.votes.setRound (r + 1) = .error p) : Fault env P s (.votes p)
  | precommitWait (r : Int) (id : BlockID)
      (hmaj : twoThirdsMajority (s.rs.votes.precommits r) = some id)
      (hany : hasTwoThirdsAny (s.rs.votes.precommits r) = false) :
      Fault env P s .precommitWaitWithoutTwoThirds
  | votes (v : Vote) (peerID : P2PID) (ext : Bool) (p : HeightVoteSetPanic)
      (hv : P.handles (.vote v))
      (h : (s.rs.votes.addVote env.crypto v peerID ext).2 = .error p) : Fault env P s (.votes p)
  | lastCommit (v : Vote) (vs : VoteSet) (p : VoteSetPanic) (hvs : s.rs.lastCommit = some vs)
      (h : vs.addVote env.crypto v = .error p) : Fault env P s (.lastCommit p)

def behaviour (env : Env β) (P : Policy) : Behaviour (State β) Panic where
  step := Transition env P
  stop := fun s t => Transition env P s t ∨ Interrupted P s t
  fault := Fault env P
  stop_of_step := Or.inl

end CelestiaCore.Consensus
