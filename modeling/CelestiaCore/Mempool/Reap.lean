import CelestiaCore.Mempool.PoolLimit

/-!
# Reaping transactions

`ReapMaxBytesMaxGas` of `mempool/cat/pool.go` returns one prefix of every set after another.
-/
namespace CelestiaCore.Mempool
open Wire Keyed Table List

/-- The variables of the loops of `ReapMaxBytesMaxGas`. -/
structure Reaping where
  totalBytes : Int
  totalGas : Int
  keep : List WrappedTx

def Reaping.exceeds (maxBytes maxGas : Int) (r : Reaping) (wtx : WrappedTx) : Bool :=
  maxBytes ≥ 0 && wrap64 (r.totalBytes + wtx.size) > maxBytes ||
    maxGas ≥ 0 && wrap64 (r.totalGas + wtx.gasWanted) > maxGas

/-- The inner loop, which breaks at the first transaction that does not fit. -/
def Reaping.reapSet (maxBytes maxGas : Int) : Reaping → List WrappedTx → Reaping
  | r, [] => r
  | r, wtx :: rest =>
    if r.exceeds maxBytes maxGas wtx then r
    else
      reapSet maxBytes maxGas
        ⟨wrap64 (r.totalBytes + wtx.size), wrap64 (r.totalGas + wtx.gasWanted),
          r.keep ++ [wtx]⟩ rest

def WrappedTx.cached (wtx : WrappedTx) : CachedTx := ⟨wtx.tx, wtx.key⟩

def TxPool.reap (txmp : TxPool) (maxBytes maxGas : Int) : List WrappedTx :=
  (txmp.store.orderedTxSets.foldl
    (fun (r : Reaping) ts => r.reapSet maxBytes maxGas (txmp.store.heap ts).txs) ⟨0, 0, []⟩).keep

def TxPool.reapMaxBytesMaxGas (txmp : TxPool) (maxBytes maxGas : Int) : List CachedTx :=
  (txmp.reap maxBytes maxGas).map WrappedTx.cached

def gas (txs : List WrappedTx) : Int := (txs.map WrappedTx.gasWanted).sum

@[simp] theorem gas_cons (wtx : WrappedTx) (txs : List WrappedTx) :
    gas (wtx :: txs) = wtx.gasWanted + gas txs := sum_cons

@[simp] theorem gas_append (l₁ l₂ : List WrappedTx) : gas (l₁ ++ l₂) = gas l₁ + gas l₂ := by
  rw [gas, map_append, sum_append, gas, gas]

variable {l₁ l₂ : List WrappedTx}

theorem gas_perm (h : l₁.Perm l₂) : gas l₁ = gas l₂ := (h.map _).sum_eq

theorem gas_nonneg {txs : List WrappedTx} (h : ∀ tx ∈ txs, 0 ≤ tx.gasWanted) : 0 ≤ gas txs := by
  induction txs with
  | nil => exact le_rfl
  | cons wtx txs ih =>
    have hwtx := h wtx (mem_cons_self ..)
    have hrest := ih fun tx htx => h tx (mem_cons_of_mem _ htx)
    rw [gas_cons]
    omega

/-- Transactions whose gas is not negative and whose sums fit into 64 bits. -/
structure Moderate (txs : List WrappedTx) : Prop where
  gasWanted : ∀ tx ∈ txs, 0 ≤ tx.gasWanted
  gas : gas txs < 2 ^ 63
  bytes : sizes txs < 2 ^ 63

theorem Moderate.left (h : Moderate (l₁ ++ l₂)) : Moderate l₁ := by
  have hgas := gas_nonneg fun tx htx => h.gasWanted tx (mem_append_right l₁ htx)
  have hsizes := sizes_nonneg l₂
  have hgas' := h.gas
  have hbytes' := h.bytes
  rw [gas_append] at hgas'
  rw [sizes_append] at hbytes'
  exact ⟨fun tx htx => h.gasWanted tx (mem_append_left l₂ htx), by omega, by omega⟩

theorem Moderate.perm (h : Moderate l₁) (hp : l₁.Perm l₂) : Moderate l₂ :=
  ⟨fun tx htx => h.gasWanted tx (hp.mem_iff.2 htx), gas_perm hp ▸ h.gas, sizes_perm hp ▸ h.bytes⟩

theorem Moderate.sublist (h : Moderate l₂) (hsub : l₁.Sublist l₂) : Moderate l₁ := by
  obtain ⟨l, hp⟩ := hsub.exists_perm_append
  exact (h.perm hp).left

/-- The transaction exceeds a limit when it comes after the others. -/
def Exceeds (maxBytes maxGas : Int) (before : List WrappedTx) (tx : WrappedTx) : Prop :=
  0 ≤ maxBytes ∧ maxBytes < sizes before + tx.size ∨ 0 ≤ maxGas ∧ maxGas < gas before + tx.gasWanted

structure Reaping.Counts (maxBytes maxGas : Int) (r : Reaping) : Prop where
  totalBytes : r.totalBytes = sizes r.keep
  totalGas : r.totalGas = gas r.keep
  bytes : 0 ≤ maxBytes → sizes r.keep ≤ maxBytes
  gas : 0 ≤ maxGas → gas r.keep ≤ maxGas

namespace Reaping
variable {maxBytes maxGas : Int} {r : Reaping} {wtx : WrappedTx}

theorem wrapped_totals (h : r.Counts maxBytes maxGas) (hm : Moderate (r.keep ++ [wtx])) :
    wrap64 (r.totalBytes + wtx.size) = sizes (r.keep ++ [wtx]) ∧
      wrap64 (r.totalGas + wtx.gasWanted) = gas (r.keep ++ [wtx]) := by
  have hbytes : r.totalBytes + wtx.size = sizes (r.keep ++ [wtx]) := by
    rw [h.totalBytes, sizes_append, sizes_cons, sizes_nil]
    omega
  have hgas : r.totalGas + wtx.gasWanted = gas (r.keep ++ [wtx]) := by
    rw [h.totalGas, gas_append, gas_cons]
    exact congrArg _ (Int.add_zero _).symm
  have hsizes := sizes_nonneg (r.keep ++ [wtx])
  have hgas' := gas_nonneg hm.gasWanted
  have hlow : (-2 ^ 63 : Int) ≤ 0 := by decide
  rw [hbytes, hgas, wrap64_of_range (hlow.trans hsizes) hm.bytes,
    wrap64_of_range (hlow.trans hgas') hm.gas]
  exact ⟨rfl, rfl⟩

theorem exceeds_iff (h : r.Counts maxBytes maxGas) (hm : Moderate (r.keep ++ [wtx])) :
    r.exceeds maxBytes maxGas wtx = true ↔ Exceeds maxBytes maxGas r.keep wtx := by
  obtain ⟨hbytes, hgas⟩ := wrapped_totals h hm
  rw [exceeds, hbytes, hgas, sizes_append, gas_append, sizes_cons, gas_cons, sizes_nil, Exceeds]
  simp only [Bool.or_eq_true, Bool.and_eq_true, decide_eq_true_eq, gt_iff_lt, ge_iff_le,
    Int.add_zero, Mempool.gas, map_nil, sum_nil]

theorem Counts.keep (h : r.Counts maxBytes maxGas) (hm : Moderate (r.keep ++ [wtx]))
    (hfits : ¬r.exceeds maxBytes maxGas wtx = true) : Counts maxBytes maxGas
      ⟨wrap64 (r.totalBytes + wtx.size), wrap64 (r.totalGas + wtx.gasWanted), r.keep ++ [wtx]⟩ := by
  obtain ⟨hbytes, hgas⟩ := wrapped_totals h hm
  rw [exceeds_iff h hm, Exceeds, not_or, not_and, not_and] at hfits
  refine ⟨hbytes, hgas, fun hb => ?_, fun hg => ?_⟩
  · have hle := hfits.1 hb
    rw [sizes_append, sizes_cons, sizes_nil]
    omega
  · have hle := hfits.2 hg
    rw [gas_append, gas_cons]
    simp only [Mempool.gas, map_nil, sum_nil] at hle ⊢
    omega

/-- What the inner loop keeps of a set: a prefix, after which the next one exceeds a limit. -/
theorem reapSet_spec (txs : List WrappedTx) (h : r.Counts maxBytes maxGas)
    (hm : Moderate (r.keep ++ txs)) : (r.reapSet maxBytes maxGas txs).Counts maxBytes maxGas ∧
      ∃ kept rest, txs = kept ++ rest ∧ (r.reapSet maxBytes maxGas txs).keep = r.keep ++ kept ∧
        ∀ tx ∈ rest.head?, Exceeds maxBytes maxGas (r.keep ++ kept) tx := by
  induction txs generalizing r with
  | nil => exact ⟨h, [], [], rfl, (append_nil _).symm, nofun⟩
  | cons wtx txs ih =>
    have hm' : Moderate ((r.keep ++ [wtx]) ++ txs) := by rwa [append_assoc]
    rw [reapSet]
    split_ifs with hexceeds
    · refine ⟨h, [], wtx :: txs, rfl, (append_nil _).symm, fun tx htx => ?_⟩
      cases htx
      rw [append_nil]
      exact (exceeds_iff h hm'.left).1 hexceeds
    · obtain ⟨hcounts, kept, rest, rfl, hkeep, hnext⟩ := ih (h.keep hm'.left hexceeds) hm'
      refine ⟨hcounts, wtx :: kept, rest, rfl, ?_, fun tx htx => ?_⟩
      · rw [hkeep, append_assoc]
        rfl
      · have hex := hnext tx htx
        rwa [append_assoc] at hex

theorem reapSets_spec (heap : SetRef → TxSet) {sets : List SetRef} (hnodup : sets.Nodup)
    (h : r.Counts maxBytes maxGas) (hm : Moderate (r.keep ++ txsOf heap sets)) :
    (sets.foldl (fun (r : Reaping) ts => r.reapSet maxBytes maxGas (heap ts).txs) r).Counts
        maxBytes maxGas ∧ ∃ kept : SetRef → List WrappedTx,
        (sets.foldl (fun (r : Reaping) ts => r.reapSet maxBytes maxGas (heap ts).txs) r).keep =
          r.keep ++ sets.flatMap kept ∧
        ∀ a ∈ sets, ∃ rest, (heap a).txs = kept a ++ rest ∧ ∀ tx ∈ rest.head?,
          Exceeds maxBytes maxGas
            (r.keep ++ ((sets.takeWhile (· ≠ a)).flatMap kept ++ kept a)) tx := by
  induction sets generalizing r with
  | nil =>
    exact ⟨h, fun _ => [], (append_nil _).symm, nofun⟩
  | cons b sets ih =>
    obtain ⟨hnot, hnodup⟩ := nodup_cons.1 hnodup
    have hm' : Moderate ((r.keep ++ (heap b).txs) ++ txsOf heap sets) := by
      rwa [append_assoc]
    obtain ⟨hcounts, first, rest, hsplit, hkeep, hnext⟩ := reapSet_spec (heap b).txs h hm'.left
    have hm₁ : Moderate ((r.reapSet maxBytes maxGas (heap b).txs).keep ++ txsOf heap sets) := by
      rw [hkeep]
      refine hm'.sublist (.append_right ?_ _)
      rw [hsplit]
      exact (List.Sublist.refl _).append (sublist_append_left ..)
    obtain ⟨hcounts', kept, hkeep', hsets⟩ := ih hnodup hcounts hm₁
    -- The prefix of the first set is added to the ones that are known for the other sets.
    let kept' : SetRef → List WrappedTx := Function.update kept b first
    have hself : kept' b = first := Function.update_self ..
    have hother (l : List SetRef) (hb : b ∉ l) : l.flatMap kept' = l.flatMap kept :=
      flatMap_congr fun c hc => Function.update_of_ne (ne_of_mem_of_not_mem hc hb) _ _
    rw [foldl_cons]
    refine ⟨hcounts', kept', ?_, fun a ha => ?_⟩
    · rw [hkeep', hkeep, flatMap_cons, hself, hother sets hnot, append_assoc]
    · by_cases hab : a = b
      · subst hab
        refine ⟨rest, by rw [hself]; exact hsplit, fun tx htx => ?_⟩
        have hex := hnext tx htx
        simpa [hself] using hex
      · have hmem := (mem_cons.1 ha).resolve_left hab
        obtain ⟨rest', hsplit', hnext'⟩ := hsets a hmem
        have hkept : kept' a = kept a := Function.update_of_ne hab _ _
        refine ⟨rest', by rw [hkept]; exact hsplit', fun tx htx => ?_⟩
        have hex := hnext' tx htx
        have hwhile : (b :: sets).takeWhile (· ≠ a) = b :: sets.takeWhile (· ≠ a) :=
          takeWhile_cons_of_pos (by simpa using Ne.symm hab)
        rw [hwhile, flatMap_cons, hself, hkept,
          hother _ fun hb => hnot ((takeWhile_sublist _).subset hb)]
        rwa [hkeep, append_assoc, ← append_assoc first] at hex

end Reaping

/-- What is returned: within the limits, a group for every set in order, and for each signer a
prefix of its transactions in the order of their sequence numbers. -/
structure Reaped (s : Store) (maxBytes maxGas : Int) (keep : List WrappedTx)
    (kept : SetRef → List WrappedTx) : Prop where
  distinct : (keep.map WrappedTx.key).Nodup
  stored : ∀ tx ∈ keep, s.txs.lookup tx.key = some tx
  bytes : 0 ≤ maxBytes → sizes keep ≤ maxBytes
  gas : 0 ≤ maxGas → gas keep ≤ maxGas
  groups : keep = s.orderedTxSets.flatMap kept
  by_priority : s.orderedTxSets.Pairwise fun a b =>
    (s.heap b).aggregatedPriority ≤ (s.heap a).aggregatedPriority
  /-- A set without a signer is one transaction; the others are all transactions of a signer. -/
  sets : ∀ a ∈ s.orderedTxSets, ((s.heap a).signerKey = [] → (s.heap a).txs.length = 1) ∧
    ((s.heap a).signerKey ≠ [] →
      (s.heap a).txs.Perm ((values s.txs).filter fun tx => tx.sender = (s.heap a).signerKey) ∧
      keep.filter (fun tx => tx.sender = (s.heap a).signerKey) = kept a) ∧
    (s.heap a).txs.Pairwise fun t u => t.sequence ≤ u.sequence
  /-- The group is a prefix of the set, and the first transaction that is left out exceeds a limit
  together with the groups before it and its own. -/
  prefixes : ∀ a ∈ s.orderedTxSets, ∃ rest, (s.heap a).txs = kept a ++ rest ∧
    ∀ tx ∈ rest.head?, Exceeds maxBytes maxGas
      ((s.orderedTxSets.takeWhile (· ≠ a)).flatMap kept ++ kept a) tx

theorem flatMap_eq_of_sole {α β : Type} {f : α → List β} {l : List α} {a : α} (hnodup : l.Nodup)
    (ha : a ∈ l) (h : ∀ b ∈ l, b ≠ a → f b = []) : l.flatMap f = f a := by
  induction l with
  | nil => exact absurd ha not_mem_nil
  | cons b l ih =>
    obtain ⟨hnot, hnodup⟩ := nodup_cons.1 hnodup
    rw [flatMap_cons]
    by_cases hba : b = a
    · subst hba
      have hrest : l.flatMap f = [] := flatMap_eq_nil_iff.2 fun c hc =>
        h c (mem_cons_of_mem _ hc) (ne_of_mem_of_not_mem hc hnot)
      rw [hrest, append_nil]
    · rw [h b (mem_cons_self ..) hba, nil_append]
      exact ih hnodup ((mem_cons.1 ha).resolve_left (Ne.symm hba)) fun c hc =>
        h c (mem_cons_of_mem _ hc)

section Reaped
variable {s : Store} {a b : SetRef}

theorem Store.Valid.signerKey_ne (h : s.Valid) (ha : a ∈ s.orderedTxSets)
    (hb : b ∈ s.orderedTxSets) (hne : b ≠ a) (hsigned : (s.heap a).signerKey ≠ []) :
    (s.heap b).signerKey ≠ (s.heap a).signerKey := by
  intro heq
  have hlookup := (h.bySigner _ a).2 ⟨hsigned, ha, rfl⟩
  rw [(h.bySigner _ b).2 ⟨hsigned, hb, heq⟩, Option.some.injEq] at hlookup
  exact hne hlookup

theorem Store.Valid.filter_sender (h : s.Valid) {f : SetRef → List WrappedTx}
    (hf : ∀ b ∈ s.orderedTxSets, f b ⊆ (s.heap b).txs) (ha : a ∈ s.orderedTxSets)
    (hsigned : (s.heap a).signerKey ≠ []) :
    (s.orderedTxSets.flatMap f).filter (fun tx => tx.sender = (s.heap a).signerKey) = f a := by
  have hsender : ∀ b ∈ s.orderedTxSets, ∀ tx ∈ f b, tx.sender = (s.heap b).signerKey :=
    fun b hb tx htx => (h.arranged.listable b hb).wellFormed.signer tx (hf b hb htx)
  rw [filter_flatMap, flatMap_eq_of_sole h.arranged.nodup ha]
  · exact filter_eq_self.2 fun tx htx => decide_eq_true (hsender a ha tx htx)
  · intro b hb hne
    refine filter_eq_nil_iff.2 fun tx htx heq => ?_
    have hkey := (hsender b hb tx htx).symm.trans (of_decide_eq_true heq)
    exact h.signerKey_ne ha hb hne hsigned hkey

theorem Store.Valid.reaped (h : s.Valid) (hm : Moderate (values s.txs)) {maxBytes maxGas : Int}
    {r : Reaping} (hr : r = s.orderedTxSets.foldl
      (fun (r : Reaping) ts => r.reapSet maxBytes maxGas (s.heap ts).txs) ⟨0, 0, []⟩) :
    ∃ kept, Reaped s maxBytes maxGas r.keep kept := by
  have hstart : Reaping.Counts maxBytes maxGas ⟨0, 0, []⟩ := ⟨rfl, rfl, fun h => h, fun h => h⟩
  obtain ⟨hcounts, kept, hkeep, hsets⟩ :=
    Reaping.reapSets_spec s.heap h.arranged.nodup hstart (hm.perm h.stored)
  rw [← hr] at hcounts hkeep
  rw [nil_append] at hkeep
  have hsub : ∀ a ∈ s.orderedTxSets, (kept a).Sublist (s.heap a).txs := by
    intro a ha
    obtain ⟨rest, hsplit, -⟩ := hsets a ha
    rw [hsplit]
    exact sublist_append_left ..
  have hkept : r.keep.Sublist (txsOf s.heap s.orderedTxSets) := hkeep ▸ Sublist.flatMap_right _ hsub
  have hstored : ∀ tx ∈ r.keep, s.txs.lookup tx.key = some tx :=
    fun tx htx => h.lookup_iff.2 (mem_txsOf.1 (hkept.subset htx))
  refine ⟨kept, ?_, hstored, hcounts.bytes, hcounts.gas, hkeep, ?_, fun a ha =>
    ⟨?_, fun hs => ⟨?_, ?_⟩,
    ?_⟩, hsets⟩
  · refine (h.nodup_txs.sublist hkept).map_on fun t ht u hu hkey => ?_
    have hlookup := hstored t ht
    rw [hkey, hstored u hu] at hlookup
    exact (Option.some.inj hlookup).symm
  · refine h.arranged.ranked.imp fun hab => ?_
    rcases hab with hlt | ⟨heq, -⟩
    · exact hlt.le
    · exact heq.ge
  · exact (h.arranged.listable a ha).single
  · have hperm := h.stored.filter fun tx => tx.sender = (s.heap a).signerKey
    rw [txsOf, h.filter_sender (fun b _ => .refl _) ha hs] at hperm
    exact hperm.symm
  · rw [hkeep]
    exact h.filter_sender (fun b hb => (hsub b hb).subset) ha hs
  · exact h.consistent.by_sequence a ha

end Reaped

/-- Reaping from any pool that calls can lead to respects the limits and the order of the
transactions of each signer. -/
theorem TxPool.reap_respects (sorter : SliceSort) (config : MempoolConfig) (height : Int)
    (calls : List PoolCall) (txmp : TxPool) (hrun : poolAfter sorter config height calls = .ok txmp)
    (hm : Moderate (values txmp.store.txs)) (maxBytes maxGas : Int) :
    ∃ keep kept, txmp.reapMaxBytesMaxGas maxBytes maxGas = keep.map WrappedTx.cached ∧
      Reaped txmp.store maxBytes maxGas keep kept := by
  obtain ⟨kept, hreaped⟩ := (within_after hrun).valid.reaped hm rfl
  exact ⟨_, kept, rfl, hreaped⟩

def roomyConfig : MempoolConfig := ⟨10, 100, 0, 0, false⟩

def twoIncoming : List PoolCall :=
  [.tryAddNewTx (TxPool.sampleIncoming 1 1), .tryAddNewTx (TxPool.sampleIncoming 2 5)]

/-- Of two transactions the one with the higher priority is reaped when there is room for one. -/
theorem TxPool.reap_respects_two :
    ∃ txmp, poolAfter insertionSorter roomyConfig 1 twoIncoming = .ok txmp ∧
      Moderate (values txmp.store.txs) ∧ txmp.reapMaxBytesMaxGas 3 (-1) = [⟨[2, 2], [2]⟩] ∧
      ∃ keep kept, txmp.reapMaxBytesMaxGas 3 (-1) = keep.map WrappedTx.cached ∧
        Reaped txmp.store 3 (-1) keep kept := by
  have hm : ∀ txmp, poolAfter insertionSorter roomyConfig 1 twoIncoming = .ok txmp →
      Moderate (values txmp.store.txs) := by
    intro txmp h
    cases h
    exact ⟨by decide +kernel, by decide +kernel, by decide +kernel⟩
  exact ⟨_, rfl, hm _ rfl, by decide +kernel,
    TxPool.reap_respects insertionSorter roomyConfig 1 twoIncoming _ rfl (hm _ rfl) 3 (-1)⟩

end CelestiaCore.Mempool
