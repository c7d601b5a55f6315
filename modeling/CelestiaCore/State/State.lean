import CelestiaCore.Types.LightBlock
import CelestiaCore.Types.Params
import CelestiaCore.Types.ValidatorProto

/-!
# The state of the chain

`state/state.go` and `updateState` of `state/execution.go`. Validator changes of a block take effect
two heights later, parameter changes one height later. -/
namespace CelestiaCore.SM
open Wire

structure TimeoutInfo where
  timeoutPropose : Int
  timeoutCommit : Int
  timeoutProposeDelta : Int
  timeoutPrevote : Int
  timeoutPrevoteDelta : Int
  timeoutPrecommit : Int
  timeoutPrecommitDelta : Int
  delayedPrecommitTimeout : Int
  deriving DecidableEq, Repr

def TimeoutInfo.zero : TimeoutInfo := ⟨0, 0, 0, 0, 0, 0, 0, 0⟩

structure State where
  versionBlock : UInt64
  versionApp : UInt64
  chainID : Bytes
  initialHeight : Int
  lastBlockHeight : Int
  lastBlockID : BlockID
  lastBlockTime : Time
  nextValidators : CachedValidatorSet
  validators : CachedValidatorSet
  lastValidators : CachedValidatorSet
  lastHeightValidatorsChanged : Int
  consensusParams : ConsensusParams
  lastHeightConsensusParamsChanged : Int
  lastResultsHash : Bytes
  appHash : Bytes
  timeouts : TimeoutInfo
  deriving DecidableEq, Repr

/-- A genesis document after `ValidateAndComplete`: its validators are their keys and powers. -/
structure GenesisDoc where
  genesisTime : Time
  chainID : Bytes
  initialHeight : Int
  consensusParams : ConsensusParams
  validators : List (PubKey × Int)
  appHash : Bytes
  deriving DecidableEq, Repr

def getAppVersion (genDoc : GenesisDoc) : UInt64 :=
  if genDoc.consensusParams.versionApp ≠ 0 then genDoc.consensusParams.versionApp else 1

/-- `State{}`. -/
def State.empty : State where
  versionBlock := 0
  versionApp := 0
  chainID := []
  initialHeight := 0
  lastBlockHeight := 0
  lastBlockID := default
  lastBlockTime := 0
  nextValidators := .empty
  validators := .empty
  lastValidators := .empty
  lastHeightValidatorsChanged := 0
  consensusParams := ⟨⟨0, 0⟩, ⟨0, 0, 0⟩, [], 0, 0⟩
  lastHeightConsensusParamsChanged := 0
  lastResultsHash := []
  appHash := []
  timeouts := .zero

/-- Two validator sets from genesis: of the first block and of the second. -/
def genesisValidators (crypto : Crypto) (validators : List (PubKey × Int)) :
    Except String (CachedValidatorSet × CachedValidatorSet) :=
  match CachedValidatorSet.newValidatorSet
      (validators.map fun val => newValidator crypto val.1 val.2) with
  | .error _ => .error "cannot create validator set"
  | .ok validatorSet =>
    if validators = [] then .ok (validatorSet, validatorSet)
    else (validatorSet.incrementProposerPriority 1).map fun nextVals => (validatorSet, nextVals)

def makeGenesisState (crypto : Crypto) (genDoc : GenesisDoc) : Except String State :=
  match genesisValidators crypto genDoc.validators with
  | .error err => .error err
  | .ok (validatorSet, nextValidatorSet) => .ok
    { versionBlock := blockProtocol
      versionApp := getAppVersion genDoc
      chainID := genDoc.chainID
      initialHeight := genDoc.initialHeight
      lastBlockHeight := 0
      lastBlockID := default
      lastBlockTime := genDoc.genesisTime
      nextValidators := nextValidatorSet
      validators := validatorSet
      lastValidators := .empty
      lastHeightValidatorsChanged := genDoc.initialHeight
      consensusParams := genDoc.consensusParams
      lastHeightConsensusParamsChanged := genDoc.initialHeight
      lastResultsHash := []
      appHash := genDoc.appHash
      timeouts := .zero }

/-- What `applyBlock` takes from the response of the application. `txResultsHash` is the hash that
`TxResultsHash` makes of the results. -/
structure ResponseFinalizeBlock where
  validatorUpdates : List (PubKey × Int)
  consensusParamUpdates : Option ParamUpdates
  txResultsHash : Bytes
  appHash : Bytes
  timeoutInfo : TimeoutInfo
  deriving DecidableEq, Repr

/-- The next validators after the updates of a block and one rotation. -/
def nextValSet (vals : CachedValidatorSet) (validatorUpdates : List Validator) :
    Except String CachedValidatorSet :=
  if validatorUpdates = [] then vals.incrementProposerPriority 1
  else
    match vals.updateWithChangeSet validatorUpdates true with
    | .error _ => .error "panic in UpdateWithChangeSet"
    | .ok (_, some err) => .error s!"changing validator set: {err.text}"
    | .ok (nValSet, none) => nValSet.incrementProposerPriority 1

def nextConsensusParams (params : ConsensusParams) (updates : Option ParamUpdates) (height : Int) :
    Except String ConsensusParams :=
  match updates with
  | none => .ok params
  | some updates =>
    match (params.update updates).validateBasic with
    | .error err => .error s!"validating new consensus params: {err}"
    | .ok () =>
      match params.validateUpdate updates height with
      | .error err => .error s!"updating consensus params: {err}"
      | .ok () => .ok (params.update updates)

def updateState (state : State) (blockID : BlockID) (header : Header)
    (abciResponse : ResponseFinalizeBlock) (validatorUpdates : List Validator) :
    Except String State := do
  let height := header.height.toInt
  let nValSet ← nextValSet state.nextValidators validatorUpdates
  let nextParams ← nextConsensusParams state.consensusParams abciResponse.consensusParamUpdates
    height
  .ok
    { versionBlock := state.versionBlock
      versionApp := if abciResponse.consensusParamUpdates.isSome then nextParams.versionApp
        else state.versionApp
      chainID := state.chainID
      initialHeight := state.initialHeight
      lastBlockHeight := height
      lastBlockID := blockID
      lastBlockTime := header.time
      nextValidators := nValSet
      validators := state.nextValidators
      lastValidators := state.validators
      lastHeightValidatorsChanged := if validatorUpdates = [] then state.lastHeightValidatorsChanged
        else height + 1 + 1
      consensusParams := nextParams
      lastHeightConsensusParamsChanged := if abciResponse.consensusParamUpdates.isSome then
        height + 1
        else state.lastHeightConsensusParamsChanged
      lastResultsHash := abciResponse.txResultsHash
      appHash := []
      timeouts := abciResponse.timeoutInfo }

def State.nextHeight (state : State) : Int :=
  if state.lastBlockHeight + 1 = 1 then state.initialHeight else state.lastBlockHeight + 1

/-- The part of `applyBlock` that makes the new state of the response to a block. -/
def executed (crypto : Crypto) (state : State) (blockID : BlockID) (header : Header)
    (response : ResponseFinalizeBlock) : Except String State :=
  (updateState state blockID header response
    (response.validatorUpdates.map fun u => newValidator crypto u.1 u.2)).map
    fun state => { state with appHash := response.appHash }

/-- What `updateState` makes of the validators, the parameters and the heights. -/
structure Updated (crypto : Crypto) (state : State) (header : Header)
    (response : ResponseFinalizeBlock) (state' : State) : Prop where
  lastBlockHeight : state'.lastBlockHeight = header.height.toInt
  initialHeight : state'.initialHeight = state.initialHeight
  nextValidators : nextValSet state.nextValidators
    (response.validatorUpdates.map fun u => newValidator crypto u.1 u.2) = .ok state'.nextValidators
  validators : state'.validators = state.nextValidators
  lastValidators : state'.lastValidators = state.validators
  validatorsChanged : state'.lastHeightValidatorsChanged =
    if response.validatorUpdates = [] then state.lastHeightValidatorsChanged
    else header.height.toInt + 1 + 1
  consensusParams : nextConsensusParams state.consensusParams response.consensusParamUpdates
    header.height.toInt = .ok state'.consensusParams
  paramsChanged : state'.lastHeightConsensusParamsChanged =
    if response.consensusParamUpdates.isSome then header.height.toInt + 1
    else state.lastHeightConsensusParamsChanged

theorem executed_eq_ok_iff {crypto : Crypto} {state state' : State} {blockID : BlockID}
    {header : Header} {response : ResponseFinalizeBlock} :
    executed crypto state blockID header response = .ok state' ↔
      ∃ nValSet nextParams, nextValSet state.nextValidators
          (response.validatorUpdates.map fun u => newValidator crypto u.1 u.2) = .ok nValSet ∧
        nextConsensusParams state.consensusParams response.consensusParamUpdates
          header.height.toInt = .ok nextParams ∧
        state' =
          { versionBlock := state.versionBlock
            versionApp := if response.consensusParamUpdates.isSome then nextParams.versionApp
              else state.versionApp
            chainID := state.chainID
            initialHeight := state.initialHeight
            lastBlockHeight := header.height.toInt
            lastBlockID := blockID
            lastBlockTime := header.time
            nextValidators := nValSet
            validators := state.nextValidators
            lastValidators := state.validators
            lastHeightValidatorsChanged :=
              if response.validatorUpdates = [] then state.lastHeightValidatorsChanged
              else header.height.toInt + 1 + 1
            consensusParams := nextParams
            lastHeightConsensusParamsChanged :=
              if response.consensusParamUpdates.isSome then header.height.toInt + 1
              else state.lastHeightConsensusParamsChanged
            lastResultsHash := response.txResultsHash
            appHash := response.appHash
            timeouts := response.timeoutInfo } := by
  unfold executed updateState
  cases hvals : nextValSet state.nextValidators
      (response.validatorUpdates.map fun u => newValidator crypto u.1 u.2) with
  | error err => simp [Except.map]
  | ok nValSet =>
    cases hparams : nextConsensusParams state.consensusParams response.consensusParamUpdates
        header.height.toInt with
    | error err => simp [hparams, Except.map]
    | ok nextParams =>
      simp only [hparams, ok_bind, Except.map, Except.ok.injEq, List.map_eq_nil_iff]
      constructor
      · rintro rfl
        exact ⟨nValSet, nextParams, rfl, rfl, rfl⟩
      · rintro ⟨_, _, rfl, rfl, rfl⟩
        rfl

theorem executed_eq_ok {crypto : Crypto} {state state' : State} {blockID : BlockID}
    {header : Header} {response : ResponseFinalizeBlock}
    (h : executed crypto state blockID header response = .ok state') :
    Updated crypto state header response state' := by
  obtain ⟨nValSet, nextParams, hvals, hparams, rfl⟩ := executed_eq_ok_iff.1 h
  exact ⟨rfl, rfl, hvals, rfl, rfl, rfl, hparams, rfl⟩

end CelestiaCore.SM
