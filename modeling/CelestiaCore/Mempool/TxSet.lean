import CelestiaCore.Program.Search
import CelestiaCore.Types.Commit

/-!
# Transactions of one signer

`mempool/cat/tx.go`: the transactions of one signer in the order of their sequence numbers. A set is
changed in place; here each change returns the changed set.
-/
namespace CelestiaCore.Mempool
open Wire List

abbrev TxKey := Bytes

/-- `wrappedTx`. Two transactions in a store never have the same key, so comparing them by value is
comparing pointers. -/
structure WrappedTx where
  tx : Bytes
  key : TxKey
  height : Int
  timestamp : Time
  gasWanted : Int
  priority : Int
  sender : Bytes
  sequence : ℕ
  fromBroadcast : Bool
  deriving DecidableEq, Repr

def WrappedTx.size (wtx : WrappedTx) : Int := wtx.tx.length

theorem WrappedTx.size_nonneg (wtx : WrappedTx) : 0 ≤ wtx.size := Int.natCast_nonneg _

def sizes (txs : List WrappedTx) : Int := (txs.map WrappedTx.size).sum

@[simp] theorem sizes_nil : sizes [] = 0 := rfl

@[simp] theorem sizes_cons (wtx : WrappedTx) (txs : List WrappedTx) :
    sizes (wtx :: txs) = wtx.size + sizes txs := sum_cons

theorem sizes_perm {l₁ l₂ : List WrappedTx} (h : l₁.Perm l₂) : sizes l₁ = sizes l₂ :=
  (h.map _).sum_eq

@[simp] theorem sizes_append (l₁ l₂ : List WrappedTx) : sizes (l₁ ++ l₂) = sizes l₁ + sizes l₂ := by
  rw [sizes, map_append, sum_append, sizes, sizes]

theorem sizes_nonneg (txs : List WrappedTx) : 0 ≤ sizes txs := by
  induction txs with
  | nil => exact le_rfl
  | cons wtx txs ih =>
    have h := wtx.size_nonneg
    rw [sizes_cons]
    omega

structure TxSet where
  signerKey : Bytes
  txs : List WrappedTx
  aggregatedPriority : Int
  bytes : Int
  firstTimestamp : Time
  firstHeight : Int
  totalGasWanted : Int
  weightedPrioritySum : Int
  deriving DecidableEq, Repr

/-- `&txSet{}` -/
def TxSet.empty : TxSet := ⟨[], [], 0, 0, Time.zero, 0, 0, 0⟩

/-- The condition of the search in `addTxToSet`: `wtx` goes before `y`. -/
def WrappedTx.before (wtx y : WrappedTx) : Bool :=
  if y.sequence = wtx.sequence then wtx.timestamp < y.timestamp else wtx.sequence < y.sequence

namespace TxSet

/-- The quotient of the weighted sum and the gas, which keeps its old value without gas. -/
def average (weightedPrioritySum totalGasWanted otherwise : Int) : Int :=
  if 0 < totalGasWanted then weightedPrioritySum.tdiv totalGasWanted else otherwise

def addTxToSet (set : TxSet) (wtx : WrappedTx) : TxSet :=
  let totalGasWanted := wrap64 (set.totalGasWanted + wtx.gasWanted)
  let weightedPrioritySum :=
    wrap64 (set.weightedPrioritySum + wrap64 (wtx.priority * wtx.gasWanted))
  if set.txs = [] then
    { signerKey := wtx.sender
      txs := [wtx]
      aggregatedPriority := average weightedPrioritySum totalGasWanted set.aggregatedPriority
      bytes := set.bytes + wtx.size
      firstTimestamp := wtx.timestamp
      firstHeight := wtx.height
      totalGasWanted, weightedPrioritySum }
  else
    { signerKey := set.signerKey
      txs := Search.insertBefore wtx.before wtx set.txs
      aggregatedPriority := average weightedPrioritySum totalGasWanted set.aggregatedPriority
      bytes := set.bytes + wtx.size
      firstTimestamp :=
        if wtx.timestamp < set.firstTimestamp then wtx.timestamp else set.firstTimestamp
      firstHeight := if wtx.height < set.firstHeight then wtx.height else set.firstHeight
      totalGasWanted, weightedPrioritySum }

def newTxSet (wtx : WrappedTx) : TxSet := empty.addTxToSet wtx

/-- The loop over the remaining transactions from the values of the first. -/
def earliest (first : Time × Int) (txs : List WrappedTx) : Time × Int :=
  txs.foldl (fun least t =>
    (if t.timestamp < least.1 then t.timestamp else least.1,
      if t.height < least.2 then t.height else least.2)) first

/-- The set without the transaction, `none` if it is not in it. Without transactions or gas a set
loses its priority, timestamp and height. -/
def removeTx (set : TxSet) (wtx : WrappedTx) : Option TxSet :=
  if wtx ∈ set.txs then
    let bytes := set.bytes - wtx.size
    let totalGasWanted := wrap64 (set.totalGasWanted - wtx.gasWanted)
    let weightedPrioritySum :=
      wrap64 (set.weightedPrioritySum - wrap64 (wtx.priority * wtx.gasWanted))
    let txs := set.txs.erase wtx
    match txs with
    | [] =>
      some { set with
        bytes, totalGasWanted, weightedPrioritySum, txs
        aggregatedPriority := 0, firstTimestamp := Time.zero, firstHeight := 0 }
    | t :: _ =>
      if totalGasWanted ≤ 0 then
        some { set with
          bytes, totalGasWanted, weightedPrioritySum, txs
          aggregatedPriority := 0, firstTimestamp := Time.zero, firstHeight := 0 }
      else
        let least := earliest (t.timestamp, t.height) txs
        some { set with
          bytes, totalGasWanted, weightedPrioritySum, txs
          aggregatedPriority := weightedPrioritySum.tdiv totalGasWanted
          firstTimestamp := least.1, firstHeight := least.2 }
  else none

end TxSet

/-- In the order of sequence numbers, and of timestamps among equal ones. -/
def WrappedTx.Precedes (t u : WrappedTx) : Prop :=
  t.sequence < u.sequence ∨ t.sequence = u.sequence ∧ t.timestamp ≤ u.timestamp

def WrappedTx.rank (t : WrappedTx) : Lex (ℕ × Time) := toLex (t.sequence, t.timestamp)

theorem WrappedTx.before_iff {t u : WrappedTx} : t.before u = true ↔ t.rank < u.rank := by
  rw [rank, rank, Prod.Lex.toLex_lt_toLex, before]
  split_ifs with h
  · simp [h]
  · simp [Ne.symm h]

theorem WrappedTx.precedes_iff {t u : WrappedTx} : t.Precedes u ↔ t.rank ≤ u.rank := by
  rw [rank, rank, Prod.Lex.toLex_le_toLex]
  rfl

namespace TxSet

/-- The transactions of one signer in their order, and the bytes they have. -/
structure WellFormed (set : TxSet) : Prop where
  sorted : set.txs.Pairwise WrappedTx.Precedes
  signer : ∀ tx ∈ set.txs, tx.sender = set.signerKey
  bytes : set.bytes = sizes set.txs

variable {set set' : TxSet} {wtx : WrappedTx}

theorem txs_addTxToSet (set : TxSet) (wtx : WrappedTx) :
    (set.addTxToSet wtx).txs.Perm (wtx :: set.txs) := by
  by_cases h : set.txs = []
  · simp only [addTxToSet, h]
    exact .refl _
  · simp only [addTxToSet, if_neg h]
    exact Search.insertBefore_perm _ _ _

theorem signerKey_addTxToSet (h : set.txs ≠ []) :
    (set.addTxToSet wtx).signerKey = set.signerKey := by
  simp only [addTxToSet, if_neg h]

theorem wellFormed_newTxSet (wtx : WrappedTx) : (newTxSet wtx).WellFormed := by
  refine ⟨pairwise_singleton _ _, fun tx htx => ?_, ?_⟩
  · rw [mem_singleton.1 htx]
    rfl
  · exact Int.add_comm 0 wtx.size

theorem WellFormed.addTxToSet (h : set.WellFormed) (hne : set.txs ≠ [])
    (hsigner : wtx.sender = set.signerKey) : (set.addTxToSet wtx).WellFormed := by
  refine ⟨?_, fun tx htx => ?_, ?_⟩
  · simp only [TxSet.addTxToSet, if_neg hne]
    exact Search.insertBefore_ranked h.sorted (fun _ _ => WrappedTx.precedes_iff) fun _ =>
      WrappedTx.before_iff
  · rw [signerKey_addTxToSet hne]
    rcases mem_cons.1 ((txs_addTxToSet set wtx).mem_iff.1 htx) with rfl | htx
    · exact hsigner
    · exact h.signer tx htx
  · rw [sizes_perm (txs_addTxToSet set wtx), sizes_cons, ← h.bytes]
    simp only [TxSet.addTxToSet, if_neg hne]
    exact Int.add_comm _ _

theorem exists_removeTx (h : wtx ∈ set.txs) : ∃ set', set.removeTx wtx = some set' := by
  unfold removeTx
  rw [if_pos h]
  dsimp only
  split
  · exact ⟨_, rfl⟩
  · split
    · exact ⟨_, rfl⟩
    · exact ⟨_, rfl⟩

theorem removeTx_eq_some (h : set.removeTx wtx = some set') :
    wtx ∈ set.txs ∧ set'.signerKey = set.signerKey ∧ set'.txs = set.txs.erase wtx ∧
      set'.bytes = set.bytes - wtx.size := by
  unfold removeTx at h
  split_ifs at h with hmem
  refine ⟨hmem, ?_⟩
  dsimp only at h
  split at h
  · cases h
    exact ⟨rfl, rfl, rfl⟩
  · split_ifs at h
    · cases h
      exact ⟨rfl, rfl, rfl⟩
    · cases h
      exact ⟨rfl, rfl, rfl⟩

theorem WellFormed.removeTx (h : set.WellFormed) (hremove : set.removeTx wtx = some set') :
    set'.WellFormed := by
  obtain ⟨hmem, hsigner, htxs, hbytes⟩ := removeTx_eq_some hremove
  have hsub : set'.txs.Sublist set.txs := htxs ▸ erase_sublist
  refine ⟨h.sorted.sublist hsub, fun tx htx => ?_, ?_⟩
  · rw [hsigner]
    exact h.signer tx (hsub.subset htx)
  · have hperm := sizes_perm (perm_cons_erase hmem)
    rw [sizes_cons, ← h.bytes] at hperm
    rw [hbytes, htxs]
    omega

end TxSet
end CelestiaCore.Mempool
