import CelestiaCore.State.Execution
import CelestiaCore.State.Rollback

/-!
# The handshake with the application

`ReplayBlocks`, `replayBlocks` and `replayBlock` of `consensus/replay.go`: a node that starts brings
the application and the state to the height of the block store. -/
namespace CelestiaCore.Replay
open Wire Program SM
open Durable (lift read fail)

/-- What a node is configured with. `emptyHash` is the hash of no leaves. -/
structure Config (A : Type) where
  crypto : BatchCrypto
  hs : BlockHashes
  emptyHash : Bytes
  genDoc : GenesisDoc
  app : Application A

section Handshake
variable {A : Type} (cfg : Config A)

/-- The validators after `InitChain`: those of the response, as if they were in the genesis
document, or those that there are. -/
def initialValidators (res : ResponseInitChain) (state : State) : Except String State :=
  if res.validators ≠ [] then do
    let _ ← validatorUpdates cfg.crypto res.validators
    let sets ← genesisValidators cfg.crypto.toCrypto res.validators
    .ok { state with validators := sets.1, nextValidators := sets.2 }
  else if cfg.genDoc.validators = [] then
    .error "validator set is nil in genesis and still empty after InitChain"
  else .ok state

def initialParams (res : ResponseInitChain) (state : State) : State :=
  match res.consensusParams with
  | none => state
  | some updates =>
    let params := state.consensusParams.update updates
    { state with consensusParams := params, versionApp := params.versionApp }

/-- The state before the first block, updated with the response to `InitChain`. -/
def initialState (res : ResponseInitChain) (state : State) : Except String State := do
  let state ← initialValidators cfg res
    { state with appHash := if res.appHash ≠ [] then res.appHash else state.appHash }
  .ok { initialParams res state with timeouts := res.timeoutInfo, lastResultsHash := cfg.emptyHash }

/-- The case of an application without blocks: the application in memory, its hash and the state. -/
def initChain (state : State) : Durable (Node A) (A × Bytes × State) := do
  -- the validators of the request
  let _ ← lift ((CachedValidatorSet.newValidatorSet (cfg.genDoc.validators.map fun val =>
    newValidator cfg.crypto.toCrypto val.1 val.2)).mapError fun _ => "cannot create validator set")
  let res ← lift (cfg.app.initChain cfg.genDoc)
  if state.lastBlockHeight = 0 then do
    let state ← lift (initialState cfg res.2 state)
    onStore (StateStore.save state)
    pure (res.1, res.2.appHash, state)
  else pure (res.1, res.2.appHash, state)

def assertAppHashEqualsOneFromState (appHash : Bytes) (state : State) : Except String Unit :=
  if appHash = state.appHash then .ok ()
  else .error "state.AppHash does not match AppHash after replay"

def assertAppHashEqualsOneFromBlock (appHash : Bytes) (block : FullBlock) : Except String Unit :=
  if appHash = block.header.appHash then .ok ()
  else .error "block.AppHash does not match AppHash after replay"

def replayBlock (proxyApp : ProxyApp A) (state : State) (height : Int) (now : Time) :
    Durable (Node A) (State × ProxyApp A) := do
  let node ← read
  let d ← lift (node.loadBlock height)
  applyBlockChecked cfg.app cfg.crypto cfg.hs proxyApp state d now

/-- The loop of `replayBlocks` over a number of blocks from height `i` on. -/
def replayLoop : Nat → Int → Bytes → ProxyApp A → Durable (Node A) (Bytes × ProxyApp A)
  | 0, _, appHash, proxyApp => pure (appHash, proxyApp)
  | n + 1, i, appHash, proxyApp => do
    let node ← read
    let d ← lift (node.loadBlock i)
    lift (if appHash ≠ [] then assertAppHashEqualsOneFromBlock appHash d.block else .ok ())
    let done ← execCommitBlock cfg.app cfg.crypto proxyApp d cfg.genDoc.initialHeight
    replayLoop n (i + 1) done.1 done.2

def replayBlocks (a : A) (state : State) (appBlockHeight storeBlockHeight : Int)
    (mutateState : Bool)
    (now : Time) : Durable (Node A) (Bytes × ProxyApp A) := do
  let finalBlock := if mutateState then storeBlockHeight - 1 else storeBlockHeight
  let firstBlock := if appBlockHeight + 1 = 1 then state.initialHeight else appBlockHeight + 1
  let done ← replayLoop cfg (finalBlock - firstBlock + 1).toNat firstBlock [] (.real a)
  if mutateState then do
    let last ← replayBlock cfg done.2 state storeBlockHeight now
    lift (assertAppHashEqualsOneFromState last.1.appHash last.1)
    pure (last.1.appHash, last.2)
  else do
    lift (assertAppHashEqualsOneFromState done.1 state)
    pure done

/-- The constraints on the height and the base of the block store; the last two are panics. -/
def checkHeights (node : Node A) (state : State) (appBlockHeight : Int) : Except String Unit :=
  if appBlockHeight = 0 ∧ state.initialHeight < node.base then
    .error s!"app block height ({appBlockHeight}) is too far below block store base ({node.base})"
  else if 0 < appBlockHeight ∧ appBlockHeight < node.base - 1 then
    .error s!"app block height ({appBlockHeight}) is too far below block store base ({node.base})"
  else if node.height < appBlockHeight then
    .error s!"app block height ({appBlockHeight}) is higher than core ({node.height})"
  else if node.height < state.lastBlockHeight then
    .error s!"StateBlockHeight ({state.lastBlockHeight}) > StoreBlockHeight ({node.height})"
  else if state.lastBlockHeight + 1 < node.height then
    .error (s!"StoreBlockHeight ({node.height}) > " ++
      s!"StateBlockHeight + 1 ({state.lastBlockHeight + 1})")
  else .ok ()

/-- The mock, with the hash that the application reports if the saved response has none. -/
def mockResponse (appHash : Bytes) (response : FinalizeResponse) : FinalizeResponse :=
  if response.appHash = [] then { response with appHash := appHash } else response

/-- `ReplayBlocks` once an application without blocks is initialized. -/
def syncBlocks (a : A) (appHash : Bytes) (state : State) (appBlockHeight : Int) (now : Time) :
    Durable (Node A) (Bytes × ProxyApp A) := do
  let node ← read
  let storeBlockHeight := node.height
  let stateBlockHeight := state.lastBlockHeight
  if storeBlockHeight = 0 then do
    lift (assertAppHashEqualsOneFromState appHash state)
    pure (appHash, .real a)
  else do
    lift (checkHeights node state appBlockHeight)
    if storeBlockHeight = stateBlockHeight then
      if appBlockHeight < storeBlockHeight then
        replayBlocks cfg a state appBlockHeight storeBlockHeight false now
      else do
        lift (assertAppHashEqualsOneFromState appHash state)
        pure (appHash, .real a)
    else if appBlockHeight < stateBlockHeight then
      replayBlocks cfg a state appBlockHeight storeBlockHeight true now
    else if appBlockHeight = stateBlockHeight then do
      let last ← replayBlock cfg (.real a) state storeBlockHeight now
      pure (last.1.appHash, last.2)
    else if appBlockHeight = storeBlockHeight then do
      let response ← lift (node.loadLastFinalizeBlockResponse storeBlockHeight)
      let last ← replayBlock cfg (.mock (mockResponse appHash response)) state storeBlockHeight now
      -- the real application has committed this block already
      pure (last.1.appHash, .real a)
    else
      fail (s!"uncovered case! appHeight: {appBlockHeight}, storeHeight: " ++
        s!"{storeBlockHeight}, stateHeight: {stateBlockHeight}")

/-- `ReplayBlocks`: the hash of the application and the application in memory. -/
def replayAll (state : State) (appHash : Bytes) (appBlockHeight : Int) (now : Time) :
    Durable (Node A) (Bytes × ProxyApp A) := do
  let node ← read
  if appBlockHeight = 0 then do
    let init ← initChain cfg state
    syncBlocks cfg init.1 init.2.1 init.2.2 appBlockHeight now
  else syncBlocks cfg node.app.state appHash state appBlockHeight now

/-- `LoadFromDBOrGenesisDoc`. -/
def loadState (node : Node A) : Except String State :=
  match node.store.load cfg.crypto.toCrypto with
  | .error err => .error err
  | .ok none => makeGenesisState cfg.crypto.toCrypto cfg.genDoc
  | .ok (some state) => .ok state

/-- The application version that `Info` reports is only taken where there is none. -/
def withAppVersion (version : UInt64) (state : State) : State :=
  if state.lastBlockHeight = 0 ∧ state.versionApp = 0 ∧ version ≠ 0 then
    { state with versionApp := version }
  else state

/-- The start of a node: `Handshake` on the state that is in the database, after which the state is
loaded again. -/
def handshake (now : Time) : Durable (Node A) (State × ProxyApp A) := do
  let node ← read
  let state ← lift (loadState cfg node)
  if node.app.height < 0 then
    fail s!"got a negative last block height ({node.app.height}) from the app"
  else do
    let done ← replayAll cfg (withAppVersion (cfg.app.appVersion node.app.state) state)
      (cfg.app.appHash node.app.state) node.app.height now
    let node ← read
    let loaded ← lift (node.store.load cfg.crypto.toCrypto)
    pure (loaded.getD .empty, done.2)

end Handshake

end CelestiaCore.Replay
