import CelestiaCore.Types.SignBytes
import CelestiaCore.Types.ValidatorSet
import CelestiaCore.Quorum.Weighted

/-!
# Vote sets

`types/vote_set.go`: the votes of one height, round and type, and the per-block tallies behind them.
-/
namespace CelestiaCore
open Wire Quorum

abbrev P2PID := Bytes

def addressSize : Nat := 20

def maxSignatureSize : Nat := 64

/-- Panics of the vote set and of the functions it calls. -/
inductive VoteSetPanic where
  | heightZero
  | duplicateVote
  | expectedNonConflicting
  | totalVotingPower (e : String)
  | nilPubKey
  | signBytes
  deriving DecidableEq, Repr

inductive VoteError where
  | invalidValidatorIndex
  | invalidValidatorAddress
  | unexpectedStep
  | nonDeterministicSignature
  | invalidSignature
  | expectedExtensionSignature
  | unexpectedExtension
  | conflicting (voteA voteB : Vote)
  deriving DecidableEq, Repr

/-- `Verify`: the address of the key and the signature over the vote's sign bytes. -/
def Vote.verify (crypto : Crypto) (chainID : Bytes) (vote : Vote) (pubKey : PubKey) :
    Except VoteSetPanic (Option VoteError) :=
  if crypto.address pubKey ≠ vote.validatorAddress then .ok (some .invalidValidatorAddress)
  else
    match voteSignBytes chainID vote with
    | none => .error .signBytes
    | some signBytes =>
      if crypto.verifySignature pubKey signBytes vote.signature then .ok none
      else .ok (some .invalidSignature)

def Vote.verifyVoteAndExtension (crypto : Crypto) (chainID : Bytes) (vote : Vote)
    (pubKey : PubKey) : Except VoteSetPanic (Option VoteError) := do
  match ← vote.verify crypto chainID pubKey with
  | some e => .ok (some e)
  | none =>
    if vote.type = .precommit ∧ vote.blockID.isZero = false then
      if vote.extensionSignature.length = 0 then .ok (some .expectedExtensionSignature)
      else if crypto.verifySignature pubKey (voteExtensionSignBytes chainID vote)
          vote.extensionSignature then .ok none
      else .ok (some .invalidSignature)
    else .ok none

structure BlockVotes where
  peerMaj23 : Bool
  bitArray : List Bool
  votes : List (Option Vote)
  sum : Int
  deriving DecidableEq, Repr

namespace BlockVotes

def new (peerMaj23 : Bool) (numValidators : Nat) : BlockVotes :=
  ⟨peerMaj23, .replicate numValidators false, .replicate numValidators none, 0⟩

def addVerifiedVote (bv : BlockVotes) (vote : Vote) (valIndex : Nat) (votingPower : Int) :
    BlockVotes :=
  match slot bv.votes valIndex with
  | some _ => bv
  | none =>
    { bv with
      bitArray := bv.bitArray.set valIndex true
      votes := bv.votes.set valIndex (some vote)
      sum := bv.sum + votingPower }

end BlockVotes

structure VoteSet where
  chainID : Bytes
  height : Int
  round : Int
  signedMsgType : SignedMsgType
  valSet : BoundedValidatorSet
  extensionsEnabled : Bool
  votesBitArray : List Bool
  votes : List (Option Vote)
  sum : Int
  maj23 : Option BlockID
  votesByBlock : Bytes → Option BlockVotes
  peerMaj23s : P2PID → Option BlockID

namespace VoteSet

def empty (chainID : Bytes) (height round : Int) (type : SignedMsgType)
    (valSet : BoundedValidatorSet) (extensionsEnabled : Bool) : VoteSet :=
  { chainID, height, round, signedMsgType := type, valSet, extensionsEnabled
    votesBitArray := .replicate valSet.1.size false
    votes := .replicate valSet.1.size none
    sum := 0, maj23 := none, votesByBlock := fun _ => none, peerMaj23s := fun _ => none }

/-- `NewVoteSet` and, with `extensionsEnabled`, `NewExtendedVoteSet`. -/
def new (chainID : Bytes) (height round : Int) (type : SignedMsgType)
    (valSet : BoundedValidatorSet) (extensionsEnabled : Bool) : Except VoteSetPanic VoteSet :=
  if height = 0 then .error .heightZero
  else .ok (empty chainID height round type valSet extensionsEnabled)

/-- `getVote`: a vote of the validator for the block, canonical or tallied. -/
def getVote (vs : VoteSet) (valIndex : Nat) (blockKey : Bytes) : Option Vote :=
  match slot vs.votes valIndex with
  | some existing =>
    if existing.blockID.key = blockKey then some existing
    else (vs.votesByBlock blockKey).bind fun bv => slot bv.votes valIndex
  | none => (vs.votesByBlock blockKey).bind fun bv => slot bv.votes valIndex

def verifyVote (crypto : Crypto) (vs : VoteSet) (vote : Vote) (val : Validator) :
    Except VoteSetPanic (Option VoteError) :=
  match val.pubKey with
  | none => .error .nilPubKey
  | some pk =>
    if vs.extensionsEnabled then vote.verifyVoteAndExtension crypto vs.chainID pk
    else do
      match ← vote.verify crypto vs.chainID pk with
      | some e => .ok (some e)
      | none =>
        if 0 < vote.extensionSignature.length ∨ 0 < vote.extension.length then
          .ok (some .unexpectedExtension)
        else .ok none

/-- How far a vote gets before it is counted. -/
inductive Check where
  | reject (e : VoteError)
  | duplicate
  | verified (valIndex : Nat) (votingPower : Int)

/-- The checks of `addVote` up to and including the signature. -/
def check (crypto : Crypto) (vs : VoteSet) (vote : Vote) : Except VoteSetPanic Check :=
  let valIndex := vote.validatorIndex.toInt
  if valIndex < 0 then .ok (.reject .invalidValidatorIndex)
  else if vote.validatorAddress.length = 0 then .ok (.reject .invalidValidatorAddress)
  else if vote.height.toInt ≠ vs.height ∨ vote.round.toInt ≠ vs.round ∨
      vote.type ≠ vs.signedMsgType then .ok (.reject .unexpectedStep)
  else
    match vs.valSet.1.getByIndex valIndex with
    | none => .ok (.reject .invalidValidatorIndex)
    | some val =>
      if vote.validatorAddress ≠ val.address then .ok (.reject .invalidValidatorAddress)
      else
        match vs.getVote valIndex.toNat vote.blockID.key with
        | some existing =>
          if existing.signature = vote.signature then .ok .duplicate
          else .ok (.reject .nonDeterministicSignature)
        | none =>
          match vs.verifyVote crypto vote val with
          | .error p => .error p
          | .ok (some e) => .ok (.reject e)
          | .ok none => .ok (.verified valIndex.toNat val.votingPower)

def setVote (vs : VoteSet) (valIndex : Nat) (vote : Vote) : VoteSet :=
  { vs with
    votes := vs.votes.set valIndex (some vote)
    votesBitArray := vs.votesBitArray.set valIndex true }

/-- The canonical votes and their sum. A conflicting vote replaces the canonical one only if it is
for the block of the majority. -/
def record (vs : VoteSet) (vote : Vote) (blockKey : Bytes) (valIndex : Nat) (votingPower : Int) :
    Except VoteSetPanic (VoteSet × Option Vote) :=
  match slot vs.votes valIndex with
  | some existing =>
    if existing.blockID = vote.blockID then .error .duplicateVote
    else if vs.maj23.any (·.key = blockKey) then .ok (vs.setVote valIndex vote, some existing)
    else .ok (vs, some existing)
  | none => .ok ({ vs.setVote valIndex vote with sum := vs.sum + votingPower }, none)

def tally (vs : VoteSet) (blockKey : Bytes) (conflicting : Option Vote) : Option BlockVotes :=
  match vs.votesByBlock blockKey with
  | some bv => if conflicting.isSome ∧ bv.peerMaj23 = false then none else some bv
  | none => if conflicting.isSome then none else some (.new false vs.valSet.1.size)

/-- The loop that copies the votes of the block of the majority over the canonical ones. -/
def copyVotes (votes : List (Option Vote)) (blockVotes : List (Option Vote)) : List (Option Vote) :=
  List.zipWith (fun old new => new.or old) votes blockVotes

/-- Adds the vote to its tally and sets the majority when the quorum is crossed. -/
def count (vs : VoteSet) (vote : Vote) (blockKey : Bytes) (valIndex : Nat) (votingPower : Int)
    (bv : BlockVotes) : Except VoteSetPanic VoteSet :=
  match vs.valSet.1.totalVotingPower with
  | .error e => .error (.totalVotingPower e)
  | .ok total =>
    let quorum := total * 2 / 3 + 1
    let bv' := bv.addVerifiedVote vote valIndex votingPower
    let vs := { vs with votesByBlock := Function.update vs.votesByBlock blockKey (some bv') }
    if bv.sum < quorum ∧ quorum ≤ bv'.sum ∧ vs.maj23 = none then
      .ok { vs with maj23 := some vote.blockID, votes := copyVotes vs.votes bv'.votes }
    else .ok vs

/-- `addVerifiedVote`: the new set, whether the vote was added, and the vote it conflicts with. -/
def addVerifiedVote (vs : VoteSet) (vote : Vote) (blockKey : Bytes) (valIndex : Nat)
    (votingPower : Int) : Except VoteSetPanic (VoteSet × Bool × Option Vote) := do
  let (vs, conflicting) ← vs.record vote blockKey valIndex votingPower
  match vs.tally blockKey conflicting with
  | none => .ok (vs, false, conflicting)
  | some bv =>
    let vs ← vs.count vote blockKey valIndex votingPower bv
    .ok (vs, true, conflicting)

/-- `AddVote`: the new set, whether the vote was added, and the error returned. -/
def addVote (crypto : Crypto) (vs : VoteSet) (vote : Vote) :
    Except VoteSetPanic (VoteSet × Bool × Option VoteError) := do
  match ← vs.check crypto vote with
  | .reject e => .ok (vs, false, some e)
  | .duplicate => .ok (vs, false, none)
  | .verified valIndex votingPower =>
    let (vs, added, conflicting) ←
      vs.addVerifiedVote vote vote.blockID.key valIndex votingPower
    match conflicting with
    | some existing => .ok (vs, added, some (.conflicting existing vote))
    | none => if added then .ok (vs, true, none) else .error .expectedNonConflicting

/-- `SetPeerMaj23`: the new set and whether the claim conflicts with an earlier one of the peer. -/
def setPeerMaj23 (vs : VoteSet) (peerID : P2PID) (blockID : BlockID) : VoteSet × Bool :=
  match vs.peerMaj23s peerID with
  | some existing => (vs, existing ≠ blockID)
  | none =>
    let bv := match vs.votesByBlock blockID.key with
      | some bv => { bv with peerMaj23 := true }
      | none => .new true vs.valSet.1.size
    ({ vs with
        peerMaj23s := Function.update vs.peerMaj23s peerID (some blockID)
        votesByBlock := Function.update vs.votesByBlock blockID.key (some bv) }, false)

def hasTwoThirdsMajority (vs : VoteSet) : Bool := vs.maj23.isSome

/-- `HasTwoThirdsAny`; the total of a bounded set never fails. -/
def hasTwoThirdsAny (vs : VoteSet) : Bool :=
  match vs.valSet.1.totalVotingPower with
  | .ok total => total * 2 / 3 < vs.sum
  | .error _ => false

def hasAll (vs : VoteSet) : Bool :=
  match vs.valSet.1.totalVotingPower with
  | .ok total => vs.sum = total
  | .error _ => false

end VoteSet

/-- One check of a `ValidateBasic`: the error if the condition holds. -/
def reject (c : Prop) [Decidable c] (e : String) : Except String Unit :=
  if c then .error e else .ok ()

@[simp] theorem reject_eq_ok {c : Prop} [Decidable c] {e : String} : reject c e = .ok () ↔ ¬c := by
  unfold reject
  split_ifs with h <;> simp [h]

def Vote.validateBasic (vote : Vote) : Except String Unit := do
  reject (vote.type.isVoteTypeValid = false) "invalid Type"
  reject (vote.height ≤ 0) "negative or zero Height"
  reject (vote.round < 0) "negative Round"
  vote.blockID.validateBasic.mapError fun e => s!"wrong BlockID: {e}"
  reject (vote.blockID.isZero = false ∧ vote.blockID.isComplete = false)
    "blockID must be either empty or complete"
  reject (vote.validatorAddress.length ≠ addressSize)
    s!"expected ValidatorAddress size to be {addressSize} bytes"
  reject (vote.validatorIndex < 0) "negative ValidatorIndex"
  reject (vote.signature.length = 0) "signature is missing"
  reject (maxSignatureSize < vote.signature.length)
    s!"signature is too big (max: {maxSignatureSize})"
  if vote.type ≠ .precommit ∨ vote.blockID.isZero = true then
    reject (0 < vote.extension.length) "unexpected vote extension"
    reject (0 < vote.extensionSignature.length) "unexpected vote extension signature"
  else
    reject (maxSignatureSize < vote.extensionSignature.length)
      s!"vote extension signature is too big (max: {maxSignatureSize})"
    reject (vote.extensionSignature.length = 0 ∧ vote.extension.length ≠ 0)
      "vote extension signature absent on vote with extension"

end CelestiaCore
