import CelestiaCore.Program.Durable
import CelestiaCore.State.State

/-!
# The state store

`state/store.go`. Where validators or parameters did not change at a height, the record only says
when they last did; a full set is stored in addition at every checkpoint. -/
namespace CelestiaCore.SM
open Wire Program

def valSetCheckpointInterval : Int := 100000

/-- A validator set is absent where the record only points to another one. -/
structure ValidatorsInfo where
  validatorSet : Option ValidatorSet
  lastHeightChanged : Int
  deriving DecidableEq, Repr

/-- The parameters are absent where the message has none, which is what a record has that only
points to another one. -/
structure ConsensusParamsInfo where
  consensusParams : Option ConsensusParams
  lastHeightChanged : Int
  deriving DecidableEq, Repr

/-- The database. The state is kept as it was saved; `load` decodes its validator sets. -/
structure StateStore where
  validatorsInfo : Int → Option ValidatorsInfo
  consensusParamsInfo : Int → Option ConsensusParamsInfo
  state : Option State

def StateStore.empty : StateStore := ⟨fun _ => none, fun _ => none, none⟩

/-- `saveValidatorsInfo`: the record. -/
def newValidatorsInfo (height lastHeightChanged : Int) (valSet : ValidatorSet) :
    Except String ValidatorsInfo :=
  if height < lastHeightChanged then
    .error "lastHeightChanged cannot be greater than ValidatorsInfo height"
  else if height = lastHeightChanged ∨ height % valSetCheckpointInterval = 0 then
    valSet.toProto.map fun pv => ⟨some pv, lastHeightChanged⟩
  else .ok ⟨none, lastHeightChanged⟩

/-- `saveConsensusParamsInfo`: the record. -/
def newConsensusParamsInfo (nextHeight changeHeight : Int) (params : ConsensusParams) :
    ConsensusParamsInfo :=
  ⟨if changeHeight = nextHeight then some params else none, changeHeight⟩

/-- `State.ToProto`, on the validator sets. The last validators are left out before the first
block. -/
def State.toProto (state : State) : Except String State := do
  let vals ← state.validators.toValidatorSet.toProto
  let nVals ← state.nextValidators.toValidatorSet.toProto
  if 1 ≤ state.lastBlockHeight then
    let lVals ← state.lastValidators.toValidatorSet.toProto
    .ok { state with validators := ⟨vals, 0⟩, nextValidators := ⟨nVals, 0⟩
                     lastValidators := ⟨lVals, 0⟩ }
  else
    .ok { state with validators := ⟨vals, 0⟩, nextValidators := ⟨nVals, 0⟩
                     lastValidators := .empty }

/-- `FromProto`, on the validator sets. -/
def State.fromProto (crypto : Crypto) (pb : State) : Except String State := do
  let vals ← validatorSetFromProto crypto pb.validators.toValidatorSet
  let nVals ← validatorSetFromProto crypto pb.nextValidators.toValidatorSet
  if 1 ≤ pb.lastBlockHeight then
    let lVals ← validatorSetFromProto crypto pb.lastValidators.toValidatorSet
    .ok { pb with validators := vals, nextValidators := nVals, lastValidators := lVals }
  else .ok { pb with validators := vals, nextValidators := nVals, lastValidators := .empty }

namespace StateStore

/-- `Load`; nothing is loaded from a store without a state. -/
def load (crypto : Crypto) (store : StateStore) : Except String (Option State) :=
  match store.state with
  | none => .ok none
  | some pb => (pb.fromProto crypto).map some

/-- The batch of `save`, or the error on the way to it. -/
def saveBatch (state : State) (store : StateStore) : Except String StateStore := do
  let nextHeight := state.nextHeight
  let validatorsInfo ←
    if state.lastBlockHeight + 1 = 1 then
      (newValidatorsInfo nextHeight nextHeight state.validators.toValidatorSet).map fun info =>
        Function.update store.validatorsInfo nextHeight (some info)
    else .ok store.validatorsInfo
  let info ← newValidatorsInfo (nextHeight + 1) state.lastHeightValidatorsChanged
    state.nextValidators.toValidatorSet
  let pb ← state.toProto
  .ok
    { validatorsInfo := Function.update validatorsInfo (nextHeight + 1) (some info)
      consensusParamsInfo := Function.update store.consensusParamsInfo nextHeight
        (some (newConsensusParamsInfo nextHeight state.lastHeightConsensusParamsChanged
          state.consensusParams))
      state := some pb }

/-- `Save`, which writes one batch. -/
def save (state : State) : Durable StateStore Unit := fun store =>
  match store.saveBatch state with
  | .error err => ⟨[], .error err⟩
  | .ok store' => ⟨[store'], .ok ()⟩

def lastStoredHeightFor (height lastHeightChanged : Int) : Int :=
  max (height - height % valSetCheckpointInterval) lastHeightChanged

/-- `LoadValidators`. The conversion to `int32` panics on a distance out of range, and so does the
rotation by a distance that is not positive. -/
def loadValidators (crypto : Crypto) (store : StateStore) (height : Int) :
    Except String CachedValidatorSet :=
  match store.validatorsInfo height with
  | none => .error s!"could not find validator set for height #{height}"
  | some valInfo =>
    match valInfo.validatorSet with
    | some vp => validatorSetFromProto crypto vp
    | none =>
      let lastStoredHeight := lastStoredHeightFor height valInfo.lastHeightChanged
      match (store.validatorsInfo lastStoredHeight).bind (·.validatorSet) with
      | none => .error (s!"couldn't find validators at height {lastStoredHeight} " ++
          s!"(height {height} was originally requested)")
      | some vp => do
        let vs ← validatorSetFromProto crypto vp
        if maxInt32 < height - lastStoredHeight ∨ height - lastStoredHeight < -maxInt32 - 1 then
          .error "int32 overflow"
        else
          let vs ← vs.incrementProposerPriority (height - lastStoredHeight)
          let vi2 ← vs.toValidatorSet.toProto
          validatorSetFromProto crypto vi2

/-- `LoadConsensusParams`, which panics on a pointer to a record without parameters. -/
def loadConsensusParams (store : StateStore) (height : Int) : Except String ConsensusParams :=
  match store.consensusParamsInfo height with
  | none => .error s!"could not find consensus params for height #{height}"
  | some paramsInfo =>
    match paramsInfo.consensusParams with
    | some params => .ok params
    | none =>
      match store.consensusParamsInfo paramsInfo.lastHeightChanged with
      | none => .error
        (s!"couldn't find consensus params at height {paramsInfo.lastHeightChanged} " ++
          s!"as last changed from height {height}")
      | some paramsInfo2 =>
        match paramsInfo2.consensusParams with
        | some params => .ok params
        | none => .error "invalid memory address or nil pointer dereference"

end StateStore

end CelestiaCore.SM
