import CelestiaCore.Types.LightBlock
import CelestiaCore.Types.ValidatorUpdate

/-!
# Evidence of an attack on a light client

`LightClientAttackEvidence` of `types/evidence.go`. A nil pointer in a list of validators is `none`;
a nil slice is told apart from an empty one where the source does. -/
namespace CelestiaCore
open Wire

structure LightClientAttackEvidence where
  conflictingBlock : LightBlock
  commonHeight : Int64
  byzantineValidators : Option (List (Option Validator))
  totalVotingPower : Int
  timestamp : Time
  deriving DecidableEq, Repr

/-- `sort.Sort(ValidatorsByVotingPower(validators))`: sorting two or more entries reads each of
them, so a nil one is dereferenced. -/
def sortAccused (validators : List (Option Validator)) : Except String (List (Option Validator)) :=
  if 2 ≤ validators.length ∧ none ∈ validators then .error "nil pointer dereference"
  else .ok ((sortByVotingPower validators.reduceOption).map some ++ validators.filter (· = none))

section Accused
variable (conflictingBlock : LightBlock) (commonVals : ValidatorSet) (trusted : SignedHeader)

def conflictingHeaderIsInvalid (trustedHeader : Header) : Bool :=
  trustedHeader.validatorsHash ≠ conflictingBlock.header.validatorsHash ∨
    trustedHeader.nextValidatorsHash ≠ conflictingBlock.header.nextValidatorsHash ∨
    trustedHeader.consensusHash ≠ conflictingBlock.header.consensusHash ∨
    trustedHeader.appHash ≠ conflictingBlock.header.appHash ∨
    trustedHeader.lastResultsHash ≠ conflictingBlock.header.lastResultsHash

def lunaticSigners : List (Option Validator) :=
  conflictingBlock.commit.signatures.filterMap fun commitSig =>
    if commitSig.blockIDFlag ≠ .commit then none
    else (commonVals.getByAddress commitSig.validatorAddress).map fun p => some p.2

/-- The loop over the signatures of both commits; the source does not look for a nil validator. -/
def doubleSigners : List CommitSig → Nat → Except String (List (Option Validator))
  | [], _ => .ok []
  | sigA :: sigs, i =>
    if sigA.blockIDFlag ≠ .commit then doubleSigners sigs (i + 1)
    else
      match trusted.commit.signatures[i]? with
      | none => .error "index out of range"
      | some sigB =>
        if sigB.blockIDFlag ≠ .commit then doubleSigners sigs (i + 1)
        else do
          let rest ← doubleSigners sigs (i + 1)
          .ok ((conflictingBlock.validatorSet.getByAddress sigA.validatorAddress).map (·.2) :: rest)

/-- `GetByzantineValidators`, with the panics of its loop and of its sort. The empty list is nil. -/
def getByzantineValidators : Except String (List (Option Validator)) :=
  if conflictingHeaderIsInvalid conflictingBlock trusted.header then
    sortAccused (lunaticSigners conflictingBlock commonVals)
  else if trusted.commit.round = conflictingBlock.commit.round then do
    let validators ← doubleSigners conflictingBlock trusted conflictingBlock.commit.signatures 0
    sortAccused validators
  else .ok []

end Accused

/-- A Go slice that was only appended to: nil when nothing was. -/
def appended {α : Type} (l : List α) : Option (List α) := if l.isEmpty then none else some l

def LightClientAttackEvidence.validateBasic (crypto : Crypto) (hs : Hashes)
    (l : LightClientAttackEvidence) : Except String Unit := do
  reject (l.totalVotingPower ≤ 0) "negative or zero total voting power"
  reject (l.commonHeight ≤ 0) "negative or zero common height"
  reject (l.conflictingBlock.height < l.commonHeight)
    ("common height is ahead of the conflicting block height " ++
      s!"({l.commonHeight} > {l.conflictingBlock.height})")
  (l.conflictingBlock.validateBasic crypto hs l.conflictingBlock.header.chainID).mapError
    fun e => s!"invalid conflicting light block: {e}"

end CelestiaCore
