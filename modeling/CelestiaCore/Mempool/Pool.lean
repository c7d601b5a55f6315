import CelestiaCore.Mempool.Store

/-!
# The transaction pool

`mempool/cat/pool.go`. What the application and the hooks answer and the time of a call are given
with the call. The caches of rejected and evicted transactions are not read by these calls. -/
namespace CelestiaCore.Mempool
open Wire

structure MempoolConfig where
  size : Int
  maxTxsBytes : Int
  ttlNumBlocks : Int
  ttlDuration : Int
  recheck : Bool
  deriving DecidableEq, Repr

/-- `types.CachedTx` with its key. -/
structure CachedTx where
  tx : Bytes
  key : TxKey
  deriving DecidableEq, Repr

structure ResponseCheckTx where
  code : ℕ
  log : String
  gasWanted : Int
  priority : Int
  address : Bytes
  sequence : ℕ
  deriving DecidableEq, Repr

def codeTypeOK : ℕ := 0

inductive TxError where
  | inMempool
  | preCheck (msg : String)
  | app (msg : String)
  | postCheck (msg : String)
  | full (txKey : TxKey) (size : ℕ) (sizeBytes : Int)
  deriving DecidableEq, Repr

/-- `sort.Slice`: a permutation in which no element comes before a lesser one. Nothing is said on
the order of elements of which neither is less. -/
structure SliceSort where
  sort : (SetRef → SetRef → Bool) → List SetRef → List SetRef
  perm : ∀ less l, (sort less l).Perm l
  sorted : ∀ less l, (∀ a b, less a b = true → less b a = false) →
    (∀ a b c, less a c = true → less a b = true ∨ less b c = true) →
    (sort less l).Pairwise fun a b => less b a = false

/-- The hooks are nil or functions that return an error or nil. -/
structure TxPool where
  height : Int
  preCheckFn : Option (CachedTx → Option String)
  postCheckFn : Option (CachedTx → ResponseCheckTx → Option String)
  store : Store

def newTxPool (height : Int) : TxPool :=
  ⟨height, some fun _ => none, some fun _ _ => none, newStore⟩

namespace TxPool

def preCheck (txmp : TxPool) (tx : CachedTx) : Option String :=
  txmp.preCheckFn.bind fun f => f tx

def postCheck (txmp : TxPool) (tx : CachedTx) (rsp : ResponseCheckTx) : Option String :=
  txmp.postCheckFn.bind fun f => f tx rsp

def sizeBytes (txmp : TxPool) : Int := txmp.store.totalBytes

def availableBytes (config : MempoolConfig) (txmp : TxPool) : Int :=
  config.maxTxsBytes - txmp.sizeBytes

def canAddTx (config : MempoolConfig) (txmp : TxPool) (size : Int) : Bool :=
  !(txmp.store.size > config.size || size + txmp.sizeBytes > config.maxTxsBytes)

end TxPool

/-- The order of the victims: lowest priority first, and the youngest first among equal ones. -/
def evictedBefore (heap : SetRef → TxSet) (i j : SetRef) : Bool :=
  if (heap i).aggregatedPriority = (heap j).aggregatedPriority then
    (heap j).firstTimestamp < (heap i).firstTimestamp
  else (heap i).aggregatedPriority < (heap j).aggregatedPriority

/-- The inner loop of the eviction, from the last of the first `n` transactions of a set down, on
the available bytes and the store. -/
def evictFrom (size : Int) (ts : SetRef) : ℕ → Int × Store → Except String (Int × Store)
  | 0, acc => .ok acc
  | i + 1, acc =>
    if acc.1 < size then
      match (acc.2.heap ts).txs[i]? with
      | none => .error "index out of range"
      | some tx => do
        let r ← acc.2.remove tx.key
        evictFrom size ts i (acc.1 + tx.size, r.2)
    else .ok acc

def evictSets (size : Int) : List SetRef → Int × Store → Except String (Int × Store)
  | [], acc => .ok acc
  | ts :: rest, acc => do
    let acc ← evictFrom size ts (acc.2.heap ts).txs.length acc
    if size ≤ acc.1 then .ok acc else evictSets size rest acc

namespace TxPool
variable (sorter : SliceSort) (config : MempoolConfig)

/-- Room is made if needed and possible; an error says that it was not possible. -/
def makeRoom (txmp : TxPool) (wtx : WrappedTx) : Except String (Option TxError × TxPool) :=
  if txmp.canAddTx config wtx.size then .ok (none, txmp)
  else
    let newAggPriority := txmp.store.aggregatedPriorityAfterAdd wtx
    let victims := txmp.store.getTxSetsBelowPriority newAggPriority
    if victims.1 = [] ∨ victims.2 < wtx.size then
      .ok (some (.full wtx.key txmp.store.size txmp.sizeBytes), txmp)
    else do
      let victimSets := sorter.sort (evictedBefore txmp.store.heap) victims.1
      let acc ← evictSets wtx.size victimSets (txmp.availableBytes config, txmp.store)
      .ok (none, { txmp with store := acc.2 })

def addNewTransaction (txmp : TxPool) (wtx : WrappedTx) :
    Except String (Option TxError × TxPool) := do
  let room ← txmp.makeRoom sorter config wtx
  match room.1 with
  | some err => .ok (some err, room.2)
  | none => do
    let r ← room.2.store.set (some wtx)
    .ok (none, { room.2 with store := r.2 })

/-- What is given with a call of `TryAddNewTx`: the time, whether the connection to the application
has an error and the answer of the application. -/
structure Incoming where
  tx : CachedTx
  key : TxKey
  fromBroadcast : Bool
  now : Time
  connError : Option String
  checkTx : Except String ResponseCheckTx

def wrap (txmp : TxPool) (inc : Incoming) (rsp : ResponseCheckTx) : WrappedTx :=
  { tx := inc.tx.tx
    key := inc.tx.key
    height := txmp.height
    timestamp := inc.now
    gasWanted := rsp.gasWanted
    priority := rsp.priority
    sender := rsp.address
    sequence := rsp.sequence
    fromBroadcast := inc.fromBroadcast }

/-- `TryAddNewTx` from the hook on, with the key reserved. -/
def tryReserved (txmp : TxPool) (inc : Incoming) : Except String (Option TxError × TxPool) :=
  match txmp.preCheck inc.tx with
  | some err => .ok (some (.preCheck err), txmp)
  | none =>
    match inc.connError with
    | some err => .ok (some (.app err), txmp)
    | none =>
      match inc.checkTx with
      | .error err => .ok (some (.app err), txmp)
      | .ok rsp =>
        if rsp.code ≠ codeTypeOK then .ok (none, txmp)
        else
          match txmp.postCheck inc.tx rsp with
          | some err => .ok (some (.postCheck err), txmp)
          | none => txmp.addNewTransaction sorter config (txmp.wrap inc rsp)

def release (txmp : TxPool) (key : TxKey) : TxPool :=
  { txmp with store := txmp.store.release key }

/-- The error that is returned, and the pool with the key released. -/
def tryAddNewTx (txmp : TxPool) (inc : Incoming) : Except String (Option TxError × TxPool) :=
  if inc.key ∈ txmp.store.txs then .ok (some .inMempool, txmp)
  else
    let reserved := txmp.store.reserve inc.key
    if reserved.1 then do
      let r ← tryReserved sorter config { txmp with store := reserved.2 } inc
      .ok (r.1, r.2.release inc.key)
    else .ok (some .inMempool, txmp)

def removeTxByKey (txmp : TxPool) (txKey : TxKey) : Except String TxPool := do
  let r ← txmp.store.remove txKey
  .ok { txmp with store := r.2 }

def flush (txmp : TxPool) : TxPool := { txmp with store := txmp.store.reset }

def purgeExpiredTxs (txmp : TxPool) (blockHeight : Int) (now : Time) : Except String TxPool :=
  if config.ttlNumBlocks = 0 ∧ config.ttlDuration = 0 then .ok txmp
  else do
    let expirationHeight :=
      if config.ttlNumBlocks = 0 then 0 else wrap64 (blockHeight - config.ttlNumBlocks)
    let expirationTime := if 0 < config.ttlDuration then now - config.ttlDuration else Time.zero
    let r ← txmp.store.purgeExpiredTxs expirationHeight expirationTime
    .ok { txmp with store := r.2 }

def handleRecheckResult (txmp : TxPool) (wtx : WrappedTx) (rsp : ResponseCheckTx) :
    Except String TxPool :=
  if rsp.code = codeTypeOK ∧ txmp.postCheck ⟨wtx.tx, wtx.key⟩ rsp = none then .ok txmp
  else txmp.removeTxByKey wtx.key

/-- The loop over a copy of the transactions; a call of the application that fails changes
nothing. -/
def recheckTransactions (txmp : TxPool) (recheck : WrappedTx → Except String ResponseCheckTx) :
    Except String TxPool :=
  if txmp.store.size = 0 then .error "mempool: cannot run recheck on an empty mempool"
  else
    txmp.store.getOrderedTxs.foldlM (fun txmp wtx =>
      match recheck wtx with
      | .error _ => .ok txmp
      | .ok rsp => txmp.handleRecheckResult wtx rsp) txmp

/-- What is given with a call of `Update`. -/
structure Committed where
  blockHeight : Int
  blockTxs : List CachedTx
  deliverTxResponses : ℕ
  newPreFn : Option (CachedTx → Option String)
  newPostFn : Option (CachedTx → ResponseCheckTx → Option String)
  now : Time
  recheck : WrappedTx → Except String ResponseCheckTx

def update (txmp : TxPool) (com : Committed) : Except String TxPool :=
  if com.blockTxs.length ≠ com.deliverTxResponses then
    .error (s!"mempool: got {com.blockTxs.length} transactions but " ++
      s!"{com.deliverTxResponses} DeliverTx responses")
  else do
    let txmp : TxPool := { txmp with
      height := com.blockHeight
      preCheckFn := com.newPreFn.or txmp.preCheckFn
      postCheckFn := com.newPostFn.or txmp.postCheckFn }
    let txmp ← com.blockTxs.foldlM (fun txmp tx => txmp.removeTxByKey tx.key) txmp
    let txmp ← txmp.purgeExpiredTxs config com.blockHeight com.now
    if 0 < txmp.store.size ∧ config.recheck then txmp.recheckTransactions com.recheck
    else .ok txmp

end TxPool

inductive PoolCall where
  | tryAddNewTx (inc : TxPool.Incoming)
  | update (com : TxPool.Committed)
  | removeTxByKey (txKey : TxKey)
  | flush

def TxPool.step (sorter : SliceSort) (config : MempoolConfig) (txmp : TxPool) :
    PoolCall → Except String (Option TxError × TxPool)
  | .tryAddNewTx inc => txmp.tryAddNewTx sorter config inc
  | .update com => do
    let txmp ← txmp.update config com
    .ok (none, txmp)
  | .removeTxByKey txKey => do
    let txmp ← txmp.removeTxByKey txKey
    .ok (none, txmp)
  | .flush => .ok (none, txmp.flush)

def poolAfter (sorter : SliceSort) (config : MempoolConfig) (height : Int)
    (calls : List PoolCall) : Except String TxPool :=
  calls.foldlM (fun txmp call => do
    let r ← txmp.step sorter config call
    .ok r.2) (newTxPool height)

end CelestiaCore.Mempool
