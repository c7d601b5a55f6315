import CelestiaCore.State.History
import CelestiaCore.State.Validation

/-!
# Execution of blocks

`ApplyBlock`, `applyBlock` and `ExecCommitBlock` of `state/execution.go`, on everything that
outlives the process. The application is deterministic and durable once a block is committed. -/
namespace CelestiaCore.SM
open Wire Program
open Durable (onPart write read lift)

/-- A block with the identifier it was decided with. -/
structure Decided where
  block : FullBlock
  blockID : BlockID
  deriving DecidableEq, Repr

def Decided.height (d : Decided) : Int := d.block.header.height.toInt

structure VoteInfo where
  address : Bytes
  power : Int
  blockIDFlag : BlockIDFlag
  deriving DecidableEq, Repr

structure CommitInfo where
  round : Int32
  votes : List VoteInfo
  deriving DecidableEq, Repr

def buildLastCommitInfo (block : FullBlock) (lastValSet : ValidatorSet) (initialHeight : Int) :
    Except String CommitInfo :=
  let height := block.header.height.toInt
  let commitSize := block.lastCommit.signatures.length
  let valSetLen := lastValSet.validators.length
  if height = initialHeight then .ok ⟨0, []⟩
  else if commitSize ≠ valSetLen then
    .error (s!"commit size ({commitSize}) doesn't match validator set length ({valSetLen}) " ++
      s!"at height {height}")
  else .ok ⟨block.lastCommit.round, List.zipWith (fun val commitSig =>
    ⟨val.address, val.votingPower, commitSig.blockIDFlag⟩) lastValSet.validators
      block.lastCommit.signatures⟩

def buildLastCommitInfoFromStore (crypto : Crypto) (store : StateStore) (block : FullBlock)
    (initialHeight : Int) : Except String CommitInfo :=
  let height := block.header.height.toInt
  if height = initialHeight then .ok ⟨0, []⟩
  else
    match store.loadValidators crypto (height - 1) with
    | .error err => .error s!"failed to load validator set at height {height - 1}: {err}"
    | .ok lastValSet => buildLastCommitInfo block lastValSet.toValidatorSet initialHeight

/-- The response to a block with the results of its transactions. -/
structure FinalizeResponse extends ResponseFinalizeBlock where
  txResults : List Bytes
  deriving DecidableEq, Repr

structure ResponseInitChain where
  consensusParams : Option ParamUpdates
  validators : List (PubKey × Int)
  appHash : Bytes
  timeoutInfo : TimeoutInfo
  deriving DecidableEq, Repr

/-- A deterministic application over states `A`. `Info` reports the hash that was returned for the
last block. -/
structure Application (A : Type) where
  fresh : A
  initChain : GenesisDoc → Except String (A × ResponseInitChain)
  finalizeBlock : A → FullBlock → CommitInfo → Except String (A × FinalizeResponse)
  appVersion : A → UInt64
  appHash : A → Bytes
  appHash_finalizeBlock : ∀ a block info a' response,
    finalizeBlock a block info = .ok (a', response) → appHash a' = response.appHash

/-- What the application has committed: its state, the height that it reports and, to be reasoned
about, the blocks that were executed for it. -/
structure AppDB (A : Type) where
  height : Int
  state : A
  committed : List Decided

/-- What outlives the process. The blocks are those from the initial height on; `txInfo` are the
results by which transactions are found. -/
structure Node (A : Type) where
  blocks : List Decided
  txInfo : Int → Option (List Bytes)
  lastResponse : Option (Int × FinalizeResponse)
  store : StateStore
  app : AppDB A

namespace Node
variable {A : Type}

def base (node : Node A) : Int := (node.blocks.head?.map Decided.height).getD 0

def height (node : Node A) : Int := (node.blocks.getLast?.map Decided.height).getD 0

def loadBlock (node : Node A) (height : Int) : Except String Decided :=
  match node.blocks.find? (·.height = height) with
  | none => .error "invalid memory address or nil pointer dereference"
  | some d => .ok d

def saveBlock (d : Decided) (node : Node A) : Node A := { node with blocks := node.blocks ++ [d] }

def saveTxInfo (d : Decided) (response : FinalizeResponse) (node : Node A) : Node A :=
  { node with txInfo := Function.update node.txInfo d.height (some response.txResults) }

def saveFinalizeBlockResponse (d : Decided) (response : FinalizeResponse) (node : Node A) :
    Node A :=
  { node with lastResponse := some (d.height, response) }

def commitApp (d : Decided) (a : A) (node : Node A) : Node A :=
  { node with app := ⟨d.height, a, node.app.committed ++ [d]⟩ }

def withStore (store : StateStore) (node : Node A) : Node A := { node with store := store }

def loadLastFinalizeBlockResponse (node : Node A) (height : Int) : Except String FinalizeResponse :=
  match node.lastResponse with
  | none => .error "no last ABCI response has been persisted"
  | some (h, response) =>
    if height ≠ h then
      .error s!"expected height {height} but last stored abci responses was at height {h}"
    else .ok response

end Node

def onStore {A α : Type} (p : Durable StateStore α) : Durable (Node A) α :=
  onPart Node.store Node.withStore p

/-- The application that a block is executed on: the real one with its state in memory, or the mock
that gives a saved response. -/
inductive ProxyApp (A : Type) where
  | real (a : A)
  | mock (response : FinalizeResponse)
  deriving DecidableEq

section Apply
variable {A : Type} (app : Application A) (crypto : BatchCrypto) (hs : BlockHashes)

def ProxyApp.finalizeBlock (proxyApp : ProxyApp A) (block : FullBlock) (info : CommitInfo) :
    Except String (ProxyApp A × FinalizeResponse) :=
  match proxyApp with
  | .real a => (app.finalizeBlock a block info).map fun p => (.real p.1, p.2)
  | .mock response => .ok (.mock response, response)

/-- `Commit`, which the mock does nothing for. -/
def ProxyApp.commit (proxyApp : ProxyApp A) (d : Decided) : Durable (Node A) Unit :=
  match proxyApp with
  | .real a => write (Node.commitApp d a)
  | .mock _ => pure ()

/-- `Type` of a public key. -/
def keyTypeName : KeyType → String
  | .ed25519 => "ed25519"
  | .secp256k1 => "secp256k1"
  | .sr25519 => "sr25519"

def validateValidatorUpdates (updates : List (PubKey × Int)) (pubKeyTypes : List String) :
    Except String Unit :=
  updates.forM fun u =>
    if u.2 < 0 then .error "voting power can't be negative"
    else if u.2 = 0 then .ok ()
    else if keyTypeName u.1.type ∈ pubKeyTypes then .ok ()
    else .error
      s!"validator is using pubkey {keyTypeName u.1.type}, which is unsupported for consensus"

/-- `PB2TM.ValidatorUpdates`, which checks the sizes of the keys. -/
def validatorUpdates (updates : List (PubKey × Int)) : Except String (List Validator) :=
  if updates.all (fun u => u.1.bytes.length = u.1.type.pubKeySize) then
    .ok (updates.map fun u => newValidator crypto.toCrypto u.1 u.2)
  else .error "invalid size of a public key"

/-- What `applyBlock` makes of the response: the state to be saved. -/
def stateAfter (state : State) (d : Decided) (response : FinalizeResponse) :
    Except String State := do
  (validateValidatorUpdates response.validatorUpdates state.consensusParams.pubKeyTypes).mapError
    fun e => s!"error in validator updates: {e}"
  let updates ← validatorUpdates crypto response.validatorUpdates
  let state ← (updateState state d.blockID d.block.header response.toResponseFinalizeBlock
    updates).mapError fun e => s!"commit failed for application: {e}"
  .ok { state with appHash := response.appHash }

/-- The request and the response, with the check of the number of results. -/
def executeBlock (node : Node A) (proxyApp : ProxyApp A) (initialHeight : Int) (d : Decided) :
    Except String (ProxyApp A × FinalizeResponse) := do
  let info ← buildLastCommitInfoFromStore crypto.toCrypto node.store d.block initialHeight
  let done ← proxyApp.finalizeBlock app d.block info
  if d.block.txs.length ≠ done.2.txResults.length then
    .error (s!"expected tx results length to match size of transactions in block. " ++
      s!"Expected {d.block.txs.length}, got {done.2.txResults.length}")
  else .ok done

/-- `applyBlock`: the new state and the application after the block. -/
def applyBlock (proxyApp : ProxyApp A) (state : State) (d : Decided) :
    Durable (Node A) (State × ProxyApp A) := do
  let node ← read
  let done ← lift (executeBlock app crypto node proxyApp state.initialHeight d)
  write (Node.saveTxInfo d done.2)
  write (Node.saveFinalizeBlockResponse d done.2)
  let state ← lift (stateAfter crypto state d done.2)
  done.1.commit d
  onStore (StateStore.save state)
  pure (state, done.1)

/-- `ApplyBlock`, at a time of the wall clock. -/
def applyBlockChecked (proxyApp : ProxyApp A) (state : State) (d : Decided) (now : Time) :
    Durable (Node A) (State × ProxyApp A) := do
  lift ((validateBlock crypto hs state d.block false now).mapError fun e => s!"invalid block: {e}")
  applyBlock app crypto proxyApp state d

def execCommitBlock (proxyApp : ProxyApp A) (d : Decided) (initialHeight : Int) :
    Durable (Node A) (Bytes × ProxyApp A) := do
  let node ← read
  let done ← lift (executeBlock app crypto node proxyApp initialHeight d)
  done.1.commit d
  pure (done.2.appHash, done.1)

/-- The part of `finalizeCommit` that commits a decided block. -/
def finalizeCommit (a : A) (state : State) (d : Decided) (now : Time) :
    Durable (Node A) (State × ProxyApp A) := do
  lift ((validateBlock crypto hs state d.block false now).mapError
    fun e => s!"+2/3 committed an invalid block: {e}")
  let node ← read
  if node.height < d.height then write (Node.saveBlock d) else pure ()
  applyBlock app crypto (.real a) state d

end Apply

end CelestiaCore.SM
