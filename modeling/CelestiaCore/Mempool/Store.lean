import CelestiaCore.Keyed.Table
import CelestiaCore.Mempool.TxSet

/-!
# The transaction store

`mempool/cat/store.go`. The table and the list hold pointers to the same sets, which are on a heap.
A panic is an error. -/
namespace CelestiaCore.Mempool
open Wire Keyed

abbrev SetRef := ℕ

structure Store where
  bytes : Int
  txs : Table TxKey WrappedTx
  reservedTxs : Table TxKey Unit
  setsBySigner : Table Bytes SetRef
  orderedTxSets : List SetRef
  heap : SetRef → TxSet
  /-- Pointers from here on have not been handed out. -/
  allocated : SetRef

def newStore : Store := ⟨0, ∅, ∅, ∅, [], fun _ => .empty, 0⟩

/-- The condition of the search in `getSetOrderIndex`: `ts` goes before `y`. -/
def TxSet.outranks (ts y : TxSet) : Bool :=
  if y.aggregatedPriority = ts.aggregatedPriority then ts.firstTimestamp < y.firstTimestamp
  else y.aggregatedPriority < ts.aggregatedPriority

namespace Store

def getSetOrderIndex (s : Store) (ts : SetRef) : ℕ :=
  Search.searchList s.orderedTxSets fun a => (s.heap ts).outranks (s.heap a)

def orderSet (s : Store) (ts : SetRef) : Store :=
  { s with orderedTxSets := Search.insertAt s.orderedTxSets (s.getSetOrderIndex ts) ts }

def deleteOrderedSet (s : Store) (ts : SetRef) : Except String Store :=
  if s.orderedTxSets = [] then .error "ordered tx sets list is empty"
  else if ts ∈ s.orderedTxSets then .ok { s with orderedTxSets := s.orderedTxSets.erase ts }
  else .error "tx set not found in ordered list"

def alloc (s : Store) (set : TxSet) : Store :=
  { s with heap := Function.update s.heap s.allocated set, allocated := s.allocated + 1 }

def assign (s : Store) (ts : SetRef) (set : TxSet) : Store :=
  { s with heap := Function.update s.heap ts set }

/-- The part of `set` and the result on the sets. -/
def addToSets (s : Store) (wtx : WrappedTx) : Except String Store :=
  if wtx.sender = [] then .ok ((s.alloc (.newTxSet wtx)).orderSet s.allocated)
  else
    match s.setsBySigner.lookup wtx.sender with
    | none =>
      let s' := s.alloc (.newTxSet wtx)
      .ok ({ s' with setsBySigner := s'.setsBySigner.insert wtx.sender s.allocated }.orderSet
        s.allocated)
    | some ts => do
      let s ← s.deleteOrderedSet ts
      .ok ((s.assign ts ((s.heap ts).addTxToSet wtx)).orderSet ts)

/-- A nil transaction is `none`. -/
def set (s : Store) : Option WrappedTx → Except String (Bool × Store)
  | none => .ok (false, s)
  | some wtx =>
    if wtx.key ∈ s.txs then .ok (false, s)
    else do
      let s ← addToSets
        { s with txs := s.txs.insert wtx.key wtx, bytes := s.bytes + wtx.size } wtx
      .ok (true, s)

/-- The part of `remove` on the sets, after the transaction has left the table. -/
def removeFromSets (s : Store) (tx : WrappedTx) : Except String (Bool × Store) :=
  if tx.sender = [] then
    if s.orderedTxSets.any fun a => (s.heap a).txs = [tx] then
      .ok (true, { s with
        orderedTxSets := s.orderedTxSets.eraseP fun a => (s.heap a).txs = [tx] })
    else .ok (false, s)
  else
    match s.setsBySigner.lookup tx.sender with
    | none => .ok (false, s)
    | some ts => do
      let s ← s.deleteOrderedSet ts
      match (s.heap ts).removeTx tx with
      | none => .error "remove tx: transaction not found in set"
      | some set =>
        let s := s.assign ts set
        if set.txs = [] then .ok (true, { s with setsBySigner := s.setsBySigner.erase tx.sender })
        else .ok (true, s.orderSet ts)

def remove (s : Store) (txKey : TxKey) : Except String (Bool × Store) :=
  match s.txs.lookup txKey with
  | none => .ok (false, s)
  | some tx =>
    removeFromSets { s with bytes := s.bytes - tx.size, txs := s.txs.erase txKey } tx

def get (s : Store) (txKey : TxKey) : Option WrappedTx := s.txs.lookup txKey

def reserve (s : Store) (txKey : TxKey) : Bool × Store :=
  if txKey ∈ s.reservedTxs then (false, s)
  else (true, { s with reservedTxs := s.reservedTxs.insert txKey () })

def release (s : Store) (txKey : TxKey) : Store :=
  { s with reservedTxs := s.reservedTxs.erase txKey }

def size (s : Store) : ℕ := s.txs.entries.length

def totalBytes (s : Store) : Int := s.bytes

/-- The sets below a priority from the lowest up, until one is not below it, and their bytes. -/
def getTxSetsBelowPriority (s : Store) (priority : Int) : List SetRef × Int :=
  let sets := s.orderedTxSets.reverse.takeWhile fun a =>
    (s.heap a).aggregatedPriority < priority
  (sets, (sets.map fun a => (s.heap a).bytes).sum)

/-- One step of the loop of `purgeExpiredTxs`. -/
def purgeSet (expirationHeight : Int) (expirationAge : Time) (acc : List WrappedTx × Store)
    (ts : SetRef) : Except String (List WrappedTx × Store) :=
  let set := acc.2.heap ts
  if set.firstHeight < expirationHeight ∨ set.firstTimestamp < expirationAge then do
    let s ← acc.2.deleteOrderedSet ts
    .ok (acc.1 ++ set.txs, { s with
      bytes := s.bytes - set.bytes
      setsBySigner :=
        if set.signerKey ≠ [] then s.setsBySigner.erase set.signerKey else s.setsBySigner
      txs := set.txs.foldl (fun txs tx => txs.erase tx.key) s.txs })
  else .ok acc

/-- The purged transactions, their number and the store without them. The loop is over a copy of the
list. -/
def purgeExpiredTxs (s : Store) (expirationHeight : Int) (expirationAge : Time) :
    Except String ((List WrappedTx × ℕ) × Store) := do
  let acc ← s.orderedTxSets.foldlM (purgeSet expirationHeight expirationAge) ([], s)
  .ok ((acc.1, acc.1.length), acc.2)

def reset (s : Store) : Store :=
  { s with bytes := 0, txs := ∅, setsBySigner := ∅, orderedTxSets := [] }

def getOrderedTxs (s : Store) : List WrappedTx := s.orderedTxSets.flatMap fun a => (s.heap a).txs

def aggregatedPriorityAfterAdd (s : Store) (wtx : WrappedTx) : Int :=
  if wtx.sender = [] then wtx.priority
  else
    match s.setsBySigner.lookup wtx.sender with
    | none => wtx.priority
    | some ts =>
      let set := s.heap ts
      let newWeightedSum :=
        wrap64 (set.weightedPrioritySum + wrap64 (wtx.priority * wtx.gasWanted))
      let newTotalGas := wrap64 (set.totalGasWanted + wtx.gasWanted)
      if newTotalGas ≤ 0 then 0 else newWeightedSum.tdiv newTotalGas

end Store

inductive StoreCall where
  | set (wtx : Option WrappedTx)
  | remove (txKey : TxKey)
  | purgeExpiredTxs (expirationHeight : Int) (expirationAge : Time)
  | reset

def Store.step (s : Store) : StoreCall → Except String Store
  | .set wtx => do
    let r ← s.set wtx
    .ok r.2
  | .remove txKey => do
    let r ← s.remove txKey
    .ok r.2
  | .purgeExpiredTxs expirationHeight expirationAge => do
    let r ← s.purgeExpiredTxs expirationHeight expirationAge
    .ok r.2
  | .reset => .ok s.reset

def storeAfter (calls : List StoreCall) : Except String Store := calls.foldlM Store.step newStore

end CelestiaCore.Mempool
