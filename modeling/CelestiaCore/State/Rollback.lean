import CelestiaCore.State.History
import CelestiaCore.Store.BlockStore

/-!
# Rollback

`state/rollback.go`: `Rollback` overwrites the state by the one a block before, and
`RollbackToHeight` repeats this down to a height. -/
namespace CelestiaCore.SM
open Wire Program BlockStore
open Durable (fail lift read)

structure Stores where
  bs : DB
  ss : StateStore

/-- The state that `Rollback` builds. The fields it does not set are zero. -/
def rolledBackState (invalidState : State) (rollbackHeight : Int)
    (rollbackBlock latestBlock : BlockMeta)
    (previousLastValidatorSet : CachedValidatorSet) (previousParams : ConsensusParams) : State where
  versionBlock := blockProtocol
  versionApp := previousParams.versionApp
  chainID := invalidState.chainID
  initialHeight := invalidState.initialHeight
  lastBlockHeight := rollbackBlock.header.height.toInt
  lastBlockID := rollbackBlock.blockID
  lastBlockTime := rollbackBlock.header.time
  nextValidators := invalidState.validators
  validators := invalidState.lastValidators
  lastValidators := previousLastValidatorSet
  lastHeightValidatorsChanged := min invalidState.lastHeightValidatorsChanged (rollbackHeight + 2)
  consensusParams := previousParams
  lastHeightConsensusParamsChanged :=
    if rollbackHeight < invalidState.lastHeightConsensusParamsChanged then rollbackHeight + 1
    else invalidState.lastHeightConsensusParamsChanged
  lastResultsHash := latestBlock.header.lastResultsHash
  appHash := latestBlock.header.appHash
  timeouts := .zero

/-- What `Rollback` reads. -/
def previousState (crypto : Crypto) (stores : Stores) (invalidState : State) :
    Except String State :=
  let rollbackHeight := invalidState.lastBlockHeight - 1
  match stores.bs.blockMeta rollbackHeight with
  | none => .error s!"block at height {rollbackHeight} not found"
  | some rollbackBlock =>
    match stores.bs.blockMeta invalidState.lastBlockHeight with
    | none => .error s!"block at height {invalidState.lastBlockHeight} not found"
    | some latestBlock => do
      let previousLastValidatorSet ← stores.ss.loadValidators crypto rollbackHeight
      let previousParams ← stores.ss.loadConsensusParams (rollbackHeight + 1)
      .ok (rolledBackState invalidState rollbackHeight rollbackBlock latestBlock
        previousLastValidatorSet previousParams)

def Stores.existing (crypto : Crypto) (stores : Stores) : Except String State :=
  match stores.ss.load crypto with
  | .error err => .error err
  | .ok none => .error "no state found"
  | .ok (some state) => .ok state

end CelestiaCore.SM
