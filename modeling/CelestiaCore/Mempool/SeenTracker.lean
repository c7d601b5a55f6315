import CelestiaCore.Keyed.Table
import CelestiaCore.Mempool.TxSet

/-!
# The tracker of seen transactions

`mempool/cat/cache.go`. The key index and the queues hold pointers to the same entries, which are on
a heap. -/
namespace CelestiaCore.Mempool
open Wire Keyed

abbrev EntryRef := ℕ

structure PendingTxInfo where
  signerKey : Bytes
  sequence : ℕ
  deriving DecidableEq, Repr

/-- `SeenEntry`; nil pending info is `none`. -/
structure SeenEntry where
  txKey : TxKey
  peers : Table UInt16 Unit
  addedAt : Time
  pendingTxInfo : Option PendingTxInfo

structure SeenTracker where
  txByKey : Table TxKey EntryRef
  pendingTxsBySigner : Table Bytes (List EntryRef)
  txCountByPeer : Table UInt16 Int
  perPeerLimit : ℕ
  perSignerLimit : ℕ
  heap : EntryRef → SeenEntry
  /-- Pointers from here on have not been handed out. -/
  allocated : EntryRef

def seenEntryTTL : Int := 120 * 1000000000

def newSeenTracker (perPeerLimit perSignerLimit : ℕ) : SeenTracker :=
  ⟨∅, ∅, ∅, perPeerLimit, perSignerLimit, fun _ => ⟨[], ∅, Time.zero, none⟩, 0⟩

namespace SeenTracker

def assign (s : SeenTracker) (entry : EntryRef) (e : SeenEntry) : SeenTracker :=
  { s with heap := Function.update s.heap entry e }

def txCount (s : SeenTracker) (peer : UInt16) : Int := (s.txCountByPeer.lookup peer).getD 0

def queue (s : SeenTracker) (signerKey : Bytes) : List EntryRef :=
  (s.pendingTxsBySigner.lookup signerKey).getD []

def incrementPeerTxCount (s : SeenTracker) (peer : UInt16) : SeenTracker :=
  { s with txCountByPeer := s.txCountByPeer.insert peer (s.txCount peer + 1) }

def decrementPeerTxCountLocked (s : SeenTracker) (peer : UInt16) : SeenTracker :=
  if peer = 0 then s
  else if s.txCount peer - 1 ≤ 0 then { s with txCountByPeer := s.txCountByPeer.erase peer }
  else { s with txCountByPeer := s.txCountByPeer.insert peer (s.txCount peer - 1) }

def addPeerToEntryLocked (s : SeenTracker) (entry : EntryRef) (peer : UInt16) :
    Bool × SeenTracker :=
  if peer ∈ (s.heap entry).peers then (true, s)
  else if s.perPeerLimit ≤ s.txCount peer then (false, s)
  else
    (true, (s.assign entry { s.heap entry with peers := (s.heap entry).peers.insert peer () })
      |>.incrementPeerTxCount peer)

/-- The entry is `none` when the peer was not stored. -/
def addPeerLocked (s : SeenTracker) (now : Time) (txKey : TxKey) (peer : UInt16) :
    Option EntryRef × SeenTracker :=
  if peer = 0 then (none, s)
  else
    match s.txByKey.lookup txKey with
    | some entry =>
      let r := s.addPeerToEntryLocked entry peer
      (if r.1 then some entry else none, r.2)
    | none =>
      if s.perPeerLimit ≤ s.txCount peer then (none, s)
      else
        let s' := s.assign s.allocated ⟨txKey, AList.singleton peer (), now, none⟩
        (some s.allocated,
          { s' with
            allocated := s.allocated + 1
            txByKey := s.txByKey.insert txKey s.allocated }.incrementPeerTxCount peer)

def addPeer (s : SeenTracker) (now : Time) (txKey : TxKey) (peer : UInt16) : Bool × SeenTracker :=
  let r := s.addPeerLocked now txKey peer
  (r.1.isSome, r.2)

/-- The sequence number an entry is queued by. Entries in a queue have one. -/
def sequenceOf (s : SeenTracker) (entry : EntryRef) : ℕ :=
  ((s.heap entry).pendingTxInfo.map PendingTxInfo.sequence).getD 0

def clearPendingTxMetadata (s : SeenTracker) (entry : EntryRef) : SeenTracker :=
  s.assign entry { s.heap entry with pendingTxInfo := none }

/-- The loop that trims a queue from the end drops what is beyond the limit. -/
def indexPendingTxLocked (s : SeenTracker) (entry : EntryRef) (signerKey : Bytes)
    (sequence : ℕ) : SeenTracker :=
  let queue := s.queue signerKey
  let insertIdx := Search.searchList queue fun a => sequence ≤ s.sequenceOf a
  if s.perSignerLimit ≤ queue.length ∧ insertIdx = queue.length then s
  else
    let s := s.assign entry { s.heap entry with pendingTxInfo := some ⟨signerKey, sequence⟩ }
    let queue := Search.insertAt queue insertIdx entry
    let s := (queue.drop s.perSignerLimit).foldl clearPendingTxMetadata s
    { s with
      pendingTxsBySigner := s.pendingTxsBySigner.insert signerKey (queue.take s.perSignerLimit) }

def addPendingTx (s : SeenTracker) (now : Time) (txKey : TxKey) (peer : UInt16) (signer : Bytes)
    (sequence : ℕ) : Bool × SeenTracker :=
  if signer = [] then (false, s)
  else
    let r := s.addPeerLocked now txKey peer
    match r.1 with
    | none => (false, r.2)
    | some entry =>
      if (r.2.heap entry).pendingTxInfo = none then
        (true, r.2.indexPendingTxLocked entry signer sequence)
      else (true, r.2)

/-- The entry leaves the queue of the signer, which leaves the map when it is empty. -/
def removeFromPendingQueueLocked (s : SeenTracker) (entry : EntryRef) (signerKey : Bytes) :
    SeenTracker :=
  let queue := (s.queue signerKey).erase entry
  if queue = [] then { s with pendingTxsBySigner := s.pendingTxsBySigner.erase signerKey }
  else { s with pendingTxsBySigner := s.pendingTxsBySigner.insert signerKey queue }

def unqueue (s : SeenTracker) (entry : EntryRef) : SeenTracker :=
  match (s.heap entry).pendingTxInfo with
  | none => s
  | some info => s.removeFromPendingQueueLocked entry info.signerKey

def clearPendingTx (s : SeenTracker) (txKey : TxKey) : SeenTracker :=
  match s.txByKey.lookup txKey with
  | none => s
  | some entry =>
    if (s.heap entry).pendingTxInfo = none then s
    else (s.unqueue entry).clearPendingTxMetadata entry

def removeEntryLocked (s : SeenTracker) (entry : EntryRef) : SeenTracker :=
  let s := s.unqueue entry
  let s := (s.heap entry).peers.keys.foldl decrementPeerTxCountLocked s
  { s with txByKey := s.txByKey.erase (s.heap entry).txKey }

def removeKey (s : SeenTracker) (txKey : TxKey) : SeenTracker :=
  match s.txByKey.lookup txKey with
  | none => s
  | some entry => s.removeEntryLocked entry

/-- What `RemovePeer` does to every entry and `RemovePeerFromTx` to one: the entry no longer lists
the peer, and goes when it lists no other. -/
def forgetPeer (peer : UInt16) (s : SeenTracker) (entry : EntryRef) : SeenTracker :=
  let s :=
    if peer ∈ (s.heap entry).peers then
      (s.assign entry { s.heap entry with peers := (s.heap entry).peers.erase peer })
        |>.decrementPeerTxCountLocked peer
    else s
  if (s.heap entry).peers.keys = [] then s.removeEntryLocked entry else s

def removePeer (s : SeenTracker) (peer : UInt16) : SeenTracker :=
  if peer = 0 then s
  else
    let s := (Table.values s.txByKey).foldl (forgetPeer peer) s
    { s with txCountByPeer := s.txCountByPeer.erase peer }

def removePeerFromTx (s : SeenTracker) (txKey : TxKey) (peer : UInt16) : SeenTracker :=
  if peer = 0 then s
  else
    match s.txByKey.lookup txKey with
    | none => s
    | some entry => forgetPeer peer s entry

def pruneExpired (s : SeenTracker) (now : Time) : SeenTracker :=
  (Table.values s.txByKey).foldl (fun s entry =>
    if (s.heap entry).addedAt < now - seenEntryTTL then s.removeEntryLocked entry else s) s

def prunePending (s : SeenTracker) (cutoff : Time) : SeenTracker :=
  (Table.values s.txByKey).foldl (fun s entry =>
    if (s.heap entry).pendingTxInfo = none ∨ ¬(s.heap entry).addedAt < cutoff then s
    else (s.unqueue entry).clearPendingTxMetadata entry) s

def reset (s : SeenTracker) : SeenTracker :=
  { s with txByKey := ∅, pendingTxsBySigner := ∅, txCountByPeer := ∅ }

end SeenTracker

inductive TrackerCall where
  | addPeer (now : Time) (txKey : TxKey) (peer : UInt16)
  | addPendingTx (now : Time) (txKey : TxKey) (peer : UInt16) (signer : Bytes) (sequence : ℕ)
  | clearPendingTx (txKey : TxKey)
  | removePeerFromTx (txKey : TxKey) (peer : UInt16)
  | removePeer (peer : UInt16)
  | removeKey (txKey : TxKey)
  | pruneExpired (now : Time)
  | prunePending (cutoff : Time)
  | reset

def SeenTracker.step (s : SeenTracker) : TrackerCall → SeenTracker
  | .addPeer now txKey peer => (s.addPeer now txKey peer).2
  | .addPendingTx now txKey peer signer sequence =>
    (s.addPendingTx now txKey peer signer sequence).2
  | .clearPendingTx txKey => s.clearPendingTx txKey
  | .removePeerFromTx txKey peer => s.removePeerFromTx txKey peer
  | .removePeer peer => s.removePeer peer
  | .removeKey txKey => s.removeKey txKey
  | .pruneExpired now => s.pruneExpired now
  | .prunePending cutoff => s.prunePending cutoff
  | .reset => s.reset

def trackerAfter (perPeerLimit perSignerLimit : ℕ) (calls : List TrackerCall) : SeenTracker :=
  calls.foldl SeenTracker.step (newSeenTracker perPeerLimit perSignerLimit)

end CelestiaCore.Mempool
