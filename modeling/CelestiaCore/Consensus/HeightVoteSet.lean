import CelestiaCore.Types.VoteSetRuns

/-!
# The votes of a height

`consensus/types/height_vote_set.go`: the votes of every round of a height up to the one after the
current round, and of at most two further rounds for each peer.
-/
namespace CelestiaCore.Consensus
open Wire Quorum

def minInt32 : Int := -2147483648

/-- `TwoThirdsMajority`, also of a nil set. -/
def twoThirdsMajority (vs : Option VoteSet) : Option BlockID := vs.bind (·.maj23)

def hasTwoThirdsMajority (vs : Option VoteSet) : Bool := vs.any (·.hasTwoThirdsMajority)

def hasTwoThirdsAny (vs : Option VoteSet) : Bool := vs.any (·.hasTwoThirdsAny)

def hasAll (vs : Option VoteSet) : Bool := vs.any (·.hasAll)

/-- Panics of the height vote set. Setting the round to the largest `int32` is no panic: the loop
over the rounds never ends. -/
inductive HeightVoteSetPanic where
  | setRound
  | addRound
  | overflow
  | neverReturns
  | extensionsMismatch
  | nilVoteSet
  | voteSet (p : VoteSetPanic)
  deriving DecidableEq, Repr

inductive AddVoteError where
  | unwantedRound
  | vote (e : VoteError)
  deriving DecidableEq, Repr

structure RoundVoteSet where
  prevotes : VoteSet
  precommits : VoteSet

structure HeightVoteSet where
  chainID : Bytes
  height : Int
  valSet : BoundedValidatorSet
  extensionsEnabled : Bool
  round : Int
  roundVoteSets : Int → Option RoundVoteSet
  peerCatchupRounds : P2PID → List Int

namespace HeightVoteSet

def emptyRound (hvs : HeightVoteSet) (round : Int) : RoundVoteSet where
  prevotes := .empty hvs.chainID hvs.height round .prevote hvs.valSet false
  precommits := .empty hvs.chainID hvs.height round .precommit hvs.valSet hvs.extensionsEnabled

def withRound (hvs : HeightVoteSet) (round : Int) : HeightVoteSet :=
  { hvs with
    roundVoteSets := Function.update hvs.roundVoteSets round (some (hvs.emptyRound round)) }

def addRound (hvs : HeightVoteSet) (round : Int) : Except HeightVoteSetPanic HeightVoteSet :=
  if (hvs.roundVoteSets round).isSome then .error .addRound
  else if hvs.height = 0 then .error (.voteSet .heightZero)
  else .ok (hvs.withRound round)

/-- `NewHeightVoteSet` and `NewExtendedHeightVoteSet` of a height other than 0, where `addRound`
does not panic. -/
def new (chainID : Bytes) (height : Int) (valSet : BoundedValidatorSet)
    (extensionsEnabled : Bool) : HeightVoteSet :=
  withRound ⟨chainID, height, valSet, extensionsEnabled, 0, fun _ => none, fun _ => []⟩ 0

/-- The loop of `SetRound` over `n` rounds from `r` on. -/
def addRounds (hvs : HeightVoteSet) (r : Int) : Nat → Except HeightVoteSetPanic HeightVoteSet
  | 0 => .ok hvs
  | n + 1 =>
    if (hvs.roundVoteSets r).isSome then addRounds hvs (r + 1) n
    else
      match hvs.addRound r with
      | .error p => .error p
      | .ok hvs => addRounds hvs (r + 1) n

def setRound (hvs : HeightVoteSet) (round : Int) : Except HeightVoteSetPanic HeightVoteSet :=
  if hvs.round - 1 < minInt32 then .error .overflow
  else
    let newRound := hvs.round - 1
    if hvs.round ≠ 0 ∧ round < newRound then .error .setRound
    else if round = maxInt32 then .error .neverReturns
    else
      match hvs.addRounds newRound (round - newRound + 1).toNat with
      | .error p => .error p
      | .ok hvs => .ok { hvs with round := round }

/-- `getVoteSet`; its callers have checked the type. -/
def getVoteSet (hvs : HeightVoteSet) (round : Int) (type : SignedMsgType) : Option VoteSet :=
  (hvs.roundVoteSets round).map fun rvs =>
    if type = .prevote then rvs.prevotes else rvs.precommits

def prevotes (hvs : HeightVoteSet) (round : Int) : Option VoteSet := hvs.getVoteSet round .prevote

def precommits (hvs : HeightVoteSet) (round : Int) : Option VoteSet :=
  hvs.getVoteSet round .precommit

def setVoteSet (hvs : HeightVoteSet) (round : Int) (type : SignedMsgType) (vs : VoteSet) :
    HeightVoteSet :=
  { hvs with
    roundVoteSets := Function.update hvs.roundVoteSets round ((hvs.roundVoteSets round).map
      fun rvs => if type = .prevote then { rvs with prevotes := vs }
        else { rvs with precommits := vs }) }

/-- The call of `AddVote` on the set of the vote's round and type. -/
def addToSet (crypto : Crypto) (hvs : HeightVoteSet) (vote : Vote) :
    HeightVoteSet × Except HeightVoteSetPanic (Bool × Option AddVoteError) :=
  match hvs.getVoteSet vote.round.toInt vote.type with
  | none => (hvs, .error .nilVoteSet)
  | some vs =>
    match vs.addVote crypto vote with
    | .error p => (hvs, .error (.voteSet p))
    | .ok (vs, added, err) =>
      (hvs.setVoteSet vote.round.toInt vote.type vs, .ok (added, err.map .vote))

/-- `AddVote`: the new set, and whether the vote was added and the error returned. -/
def addVote (crypto : Crypto) (hvs : HeightVoteSet) (vote : Vote) (peerID : P2PID)
    (extEnabled : Bool) : HeightVoteSet × Except HeightVoteSetPanic (Bool × Option AddVoteError) :=
  if hvs.extensionsEnabled ≠ extEnabled then (hvs, .error .extensionsMismatch)
  else if vote.type.isVoteTypeValid = false then (hvs, .ok (false, none))
  else if (hvs.getVoteSet vote.round.toInt vote.type).isSome then hvs.addToSet crypto vote
  else
    let rndz := hvs.peerCatchupRounds peerID
    if rndz.length < 2 then
      match hvs.addRound vote.round.toInt with
      | .error p => (hvs, .error p)
      | .ok hvs =>
        let catchup := Function.update hvs.peerCatchupRounds peerID (rndz ++ [vote.round.toInt])
        { hvs with peerCatchupRounds := catchup }.addToSet crypto vote
    else (hvs, .ok (false, some .unwantedRound))

/-- The loop of `POLInfo` over the rounds below `n`, from the last one down. -/
def polInfoBelow (hvs : HeightVoteSet) : Nat → Int × BlockID
  | 0 => (-1, .zero)
  | n + 1 =>
    match twoThirdsMajority (hvs.prevotes n) with
    | some blockID => (n, blockID)
    | none => polInfoBelow hvs n

def polInfo (hvs : HeightVoteSet) : Int × BlockID := hvs.polInfoBelow (hvs.round + 1).toNat

/-- `SetPeerMaj23`: the new set and whether the claim is refused. -/
def setPeerMaj23 (hvs : HeightVoteSet) (round : Int) (type : SignedMsgType) (peerID : P2PID)
    (blockID : BlockID) : HeightVoteSet × Bool :=
  if type.isVoteTypeValid = false then (hvs, true)
  else
    match hvs.getVoteSet round type with
    | none => (hvs, false)
    | some vs =>
      let (vs, conflict) := vs.setPeerMaj23 peerID blockID
      (hvs.setVoteSet round type vs, conflict)

end HeightVoteSet

end CelestiaCore.Consensus
