import CelestiaCore.Keyed.Merge
import CelestiaCore.Types.ValidatorSet

/-!
# Updates of a validator set

`NewValidatorSet` and `UpdateWithChangeSet` of `types/validator_set.go`, with the cached total
power. -/
namespace CelestiaCore
open Wire ValidatorSet

/-- What `UpdateWithChangeSet` returns as an error. -/
inductive ChangeError where
  | duplicate (address : Bytes)
  | negativePower (power : Int)
  | powerTooHigh (power : Int)
  | deletesNotAllowed
  | emptySet
  | notFound (address : Bytes)
  | totalOverflow
  deriving DecidableEq, Repr

def ChangeError.text : ChangeError → String
  | .duplicate _ => "duplicate entry"
  | .negativePower p => s!"voting power can't be negative: {p}"
  | .powerTooHigh p => "to prevent clipping/overflow, voting power can't be higher than " ++
      s!"{maxTotalVotingPower}, got {p}"
  | .deletesNotAllowed => "cannot process validators with voting power 0"
  | .emptySet => "applying the validator changes would result in empty set"
  | .notFound _ => "failed to find validator to remove"
  | .totalOverflow => s!"total voting power of resulting valset exceeds max {maxTotalVotingPower}"

/-- Where building or changing a validator set panics. -/
inductive ChangePanic where
  | moreDeletes
  | totalExceeds (err : String)
  | emptySet
  | nilPubKey
  | indexOutOfRange
  | cannotCreate (err : ChangeError)
  | increment (err : String)
  deriving DecidableEq, Repr

/-- A validator set with the total voting power it caches, 0 when not computed. -/
structure CachedValidatorSet extends ValidatorSet where
  totalVotingPower : Int
  deriving DecidableEq, Repr

/-- `ValidatorsByVotingPower`: power descending, then address ascending. -/
def ByVotingPower (v w : Validator) : Prop :=
  w.votingPower < v.votingPower ∨ v.votingPower = w.votingPower ∧ (compare v.address w.address).isLE

instance : DecidableRel ByVotingPower := fun v w =>
  inferInstanceAs (Decidable (w.votingPower < v.votingPower ∨
    v.votingPower = w.votingPower ∧ (compare v.address w.address).isLE = true))

def sortByVotingPower (vals : List Validator) : List Validator := vals.insertionSort ByVotingPower

/-- `ValidatorsByAddress`. -/
def sortByAddress (vals : List Validator) : List Validator := Keyed.sort Validator.address vals

def findByAddress (vals : List Validator) (address : Bytes) : Option Validator :=
  Keyed.lookup Validator.address vals address

/-- The loop of `processChanges` over the sorted changes, after one with address `prevAddr`. -/
def scanChanges : List Validator → Bytes → Except ChangeError (List Validator × List Validator)
  | [], _ => .ok ([], [])
  | valUpdate :: changes, prevAddr =>
    if valUpdate.address = prevAddr then .error (.duplicate valUpdate.address)
    else if valUpdate.votingPower < 0 then .error (.negativePower valUpdate.votingPower)
    else if maxTotalVotingPower < valUpdate.votingPower then
      .error (.powerTooHigh valUpdate.votingPower)
    else do
      let (updates, removals) ← scanChanges changes valUpdate.address
      if valUpdate.votingPower = 0 then .ok (updates, valUpdate :: removals)
      else .ok (valUpdate :: updates, removals)

/-- `processChanges`: the updates and the removals, each in order of address. -/
def processChanges (origChanges : List Validator) :
    Except ChangeError (List Validator × List Validator) :=
  scanChanges (sortByAddress origChanges) []

def numNewValidators (updates vals : List Validator) : Nat :=
  updates.countP fun valUpdate => (findByAddress vals valUpdate.address).isNone

/-- The loop of `verifyRemovals`: the voting power that is removed. -/
def verifyRemovals (vals : List Validator) : List Validator → Int → Except ChangeError Int
  | [], removed => .ok removed
  | valUpdate :: deletes, removed =>
    match findByAddress vals valUpdate.address with
    | none => .error (.notFound valUpdate.address)
    | some val => verifyRemovals vals deletes (wrap64 (removed + val.votingPower))

def delta (vals : List Validator) (update : Validator) : Int :=
  match findByAddress vals update.address with
  | some val => wrap64 (update.votingPower - val.votingPower)
  | none => update.votingPower

def sortByDelta (vals updates : List Validator) : List Validator :=
  updates.insertionSort fun v w => delta vals v ≤ delta vals w

/-- The loop of `verifyUpdates` over the updates in order of their delta. -/
def addDeltas (vals : List Validator) : List Validator → Int → Except ChangeError Int
  | [], tvpAfterRemovals => .ok tvpAfterRemovals
  | upd :: updates, tvpAfterRemovals =>
    let tvp := wrap64 (tvpAfterRemovals + delta vals upd)
    if maxTotalVotingPower < tvp then .error .totalOverflow else addDeltas vals updates tvp

/-- `verifyUpdates`: the total after the updates and before the removals. -/
def verifyUpdates (updates vals : List Validator) (total removedPower : Int) :
    Except ChangeError Int := do
  let tvpAfterRemovals ← addDeltas vals (sortByDelta vals updates) (wrap64 (total - removedPower))
  .ok (wrap64 (tvpAfterRemovals + removedPower))

def newPriority (updatedTotal : Int) : Int :=
  wrap64 (-wrap64 (updatedTotal + updatedTotal / 8))

def computeNewPriorities (updates vals : List Validator) (updatedTotal : Int) : List Validator :=
  updates.map fun valUpdate =>
    match findByAddress vals valUpdate.address with
    | none => { valUpdate with proposerPriority := newPriority updatedTotal }
    | some val => { valUpdate with proposerPriority := val.proposerPriority }

/-- `applyUpdates`, which sorts the validators by address. -/
def applyUpdates (vals updates : List Validator) : List Validator :=
  Keyed.override Validator.address (sortByAddress vals) updates

/-- `applyRemovals`, with `none` for an index out of range. -/
def applyRemovals (vals deletes : List Validator) : Option (List Validator) :=
  Keyed.remove Validator.address vals deletes

/-- The loop of `checkAllKeysHaveSameType`, with the first key type seen; `none` is the panic on a
validator without key after one with a key. -/
def sameKeyTypeFrom : List Validator → Option KeyType → Option Bool
  | [], _ => some true
  | val :: vals, firstKeyType =>
    match firstKeyType, val.pubKey with
    | none, none => sameKeyTypeFrom vals none
    | none, some pk => sameKeyTypeFrom vals (some pk.type)
    | some _, none => none
    | some t, some pk => if pk.type = t then sameKeyTypeFrom vals (some t) else some false

def checkAllKeysHaveSameType (vals : List Validator) : Option Bool := sameKeyTypeFrom vals none

namespace CachedValidatorSet

/-- The set without validators that `NewValidatorSet` starts from. -/
def empty : CachedValidatorSet := ⟨⟨[], none, true⟩, 0⟩

def updateTotalVotingPower (vals : CachedValidatorSet) : Except String CachedValidatorSet := do
  let sum ← vals.validators.foldlM addPower 0
  .ok { vals with totalVotingPower := sum }

/-- `TotalVotingPower`, which computes the total where none is cached: the set with its total. -/
def withTotal (vals : CachedValidatorSet) : Except String CachedValidatorSet :=
  if vals.totalVotingPower = 0 then vals.updateTotalVotingPower else .ok vals

/-- The changes that passed the checks, with the total after the updates and before the
removals. -/
structure Plan where
  updates : List Validator
  deletes : List Validator
  tvpAfterUpdatesBeforeRemovals : Int
  deriving DecidableEq, Repr

/-- The checks of `updateWithChangeSet` on a nonempty list of changes, which may fill the cache. -/
def checkChanges (vals : CachedValidatorSet) (changes : List Validator) (allowDeletes : Bool) :
    Except ChangePanic (CachedValidatorSet × Except ChangeError Plan) :=
  match processChanges changes with
  | .error err => .ok (vals, .error err)
  | .ok (updates, deletes) =>
    if allowDeletes = false ∧ deletes ≠ [] then .ok (vals, .error .deletesNotAllowed)
    else if numNewValidators updates vals.validators = 0 ∧
        vals.validators.length = deletes.length then
      .ok (vals, .error .emptySet)
    else
      match verifyRemovals vals.validators deletes 0 with
      | .error err => .ok (vals, .error err)
      | .ok removedVotingPower =>
        if vals.validators.length < deletes.length then .error .moreDeletes
        else
          match vals.withTotal with
          | .error err => .error (.totalExceeds err)
          | .ok vals =>
            match verifyUpdates updates vals.validators vals.totalVotingPower
                removedVotingPower with
            | .error err => .ok (vals, .error err)
            | .ok tvp => .ok (vals, .ok ⟨updates, deletes, tvp⟩)

/-- The validators after `applyUpdates` and `applyRemovals`, in order of address. -/
def mergeChanges (vals : CachedValidatorSet) (plan : Plan) : Option (List Validator) :=
  applyRemovals
    (applyUpdates vals.validators (computeNewPriorities plan.updates vals.validators
      plan.tvpAfterUpdatesBeforeRemovals))
    plan.deletes

def priorityWindowSizeFactor : Int := 2

/-- The part of `updateWithChangeSet` after the removals. -/
def settle (vals : CachedValidatorSet) (merged : List Validator) :
    Except ChangePanic CachedValidatorSet :=
  match checkAllKeysHaveSameType merged with
  | none => .error .nilPubKey
  | some sameType =>
    match merged.foldlM addPower 0 with
    | .error err => .error (.totalExceeds err)
    | .ok sum =>
      if merged = [] then .error .emptySet
      else
        let scaled := rescalePriorities (priorityWindowSizeFactor * sum) merged
        let centered := shiftByAvgProposerPriority scaled
        .ok { vals with
          validators := sortByVotingPower centered
          allKeysHaveSameType := sameType
          totalVotingPower := sum }

/-- `updateWithChangeSet`: the set after the call and the error it returns. `UpdateWithChangeSet`
allows deletes. -/
def updateWithChangeSet (vals : CachedValidatorSet) (changes : List Validator)
    (allowDeletes : Bool) : Except ChangePanic (CachedValidatorSet × Option ChangeError) := do
  if changes = [] then .ok (vals, none)
  else
    match ← vals.checkChanges changes allowDeletes with
    | (vals, .error err) => .ok (vals, some err)
    | (vals, .ok plan) =>
      match vals.mergeChanges plan with
      | none => .error .indexOutOfRange
      | some merged => do
        let vals ← vals.settle merged
        .ok (vals, none)

/-- `IncrementProposerPriority`, with the cached total. -/
def incrementProposerPriority (vals : CachedValidatorSet) (times : Int) :
    Except String CachedValidatorSet := do
  if vals.validators = [] then .error "empty validator set"
  else if times ≤ 0 then
    .error "Cannot call IncrementProposerPriority with non-positive times"
  else
    let vals ← vals.withTotal
    let diffMax := priorityWindowSizeFactor * vals.totalVotingPower
    let scaled := rescalePriorities diffMax vals.validators
    let centered := shiftByAvgProposerPriority scaled
    let (validators, proposer) ←
      incrementTimes vals.totalVotingPower times.toNat (centered, none)
    .ok { vals with validators := validators, proposer := proposer }

def newValidatorSet (valz : List Validator) : Except ChangePanic CachedValidatorSet := do
  match ← empty.updateWithChangeSet valz false with
  | (_, some err) => .error (.cannotCreate err)
  | (vals, none) =>
    if valz = [] then .ok vals
    else (vals.incrementProposerPriority 1).mapError .increment

/-- The sets that any sequence of calls builds. -/
inductive Reachable : CachedValidatorSet → Prop
  | new {valz : List Validator} {vals : CachedValidatorSet} (h : newValidatorSet valz = .ok vals) :
    Reachable vals
  | update {vals vals' : CachedValidatorSet} {changes : List Validator} {err : Option ChangeError}
    (hvals : Reachable vals) (h : vals.updateWithChangeSet changes true = .ok (vals', err)) :
    Reachable vals'
  | increment {vals vals' : CachedValidatorSet} {times : Int} (hvals : Reachable vals)
    (h : vals.incrementProposerPriority times = .ok vals') : Reachable vals'

end CachedValidatorSet

end CelestiaCore
