import CelestiaCore.Mempool.Pool
import CelestiaCore.Mempool.StoreValid

/-!
# The limits of the pool

The victims of an eviction have at least the bytes of the incoming transaction, so there is room
before they run out. The number of transactions is looked at before an eviction only.
-/
namespace CelestiaCore.Mempool
open Wire Keyed Table List

section Eviction
variable {s s' : Store} {size avail avail' : Int} {ts : SetRef} {tx : WrappedTx}

theorem Store.Removed.bytes (h : s.Removed tx ts s') (hs : s.Valid)
    (htx : s.txs.lookup tx.key = some tx) : s'.bytes = s.bytes - tx.size := by
  rw [h.valid.bytes, h.txs]
  exact (hs.bytes_erase htx).symm

theorem Store.Removed.size_lt (h : s.Removed tx ts s') (htx : s.txs.lookup tx.key = some tx) :
    s'.size < s.size := by
  rw [Store.size, Store.size, h.txs, ← length_erase_of_lookup htx]
  exact Nat.lt_succ_self _

/-- What an eviction of transactions of some sets does: their bytes become available, and the other
sets stay as they are. -/
structure Evicted (sets : List SetRef) (avail : Int) (s : Store) (avail' : Int) (s' : Store) :
    Prop where
  valid : s'.Valid
  reserved : avail' + s'.bytes = avail + s.bytes
  count : s' = s ∨ s'.size < s.size
  other : ∀ a ∉ sets, s'.heap a = s.heap a ∧ (a ∈ s'.orderedTxSets ↔ a ∈ s.orderedTxSets)

theorem Evicted.refl (h : s.Valid) (sets : List SetRef) : Evicted sets avail s avail s :=
  ⟨h, rfl, .inl rfl, fun _ _ => ⟨rfl, .rfl⟩⟩

theorem Evicted.trans {sets : List SetRef} {avail₁ avail₂ : Int} {s₁ s₂ : Store}
    (h₁ : Evicted sets avail s avail₁ s₁) (h₂ : Evicted sets avail₁ s₁ avail₂ s₂) :
    Evicted sets avail s avail₂ s₂ := by
  refine ⟨h₂.valid, h₂.reserved.trans h₁.reserved, ?_, fun a ha => ?_⟩
  · obtain rfl | hless := h₁.count
    · exact h₂.count
    · obtain rfl | hless₂ := h₂.count
      · exact .inr hless
      · exact .inr (hless₂.trans hless)
  obtain ⟨hheap₁, hlist₁⟩ := h₁.other a ha
  obtain ⟨hheap₂, hlist₂⟩ := h₂.other a ha
  exact ⟨hheap₂.trans hheap₁, hlist₂.trans hlist₁⟩

theorem Evicted.mono {sets sets' : List SetRef} (h : Evicted sets avail s avail' s')
    (hsub : sets ⊆ sets') : Evicted sets' avail s avail' s' :=
  ⟨h.valid, h.reserved, h.count, fun a ha => h.other a fun hmem => ha (hsub hmem)⟩

theorem Store.Valid.evict_last (h : s.Valid) (hts : ts ∈ s.orderedTxSets) {init : List WrappedTx}
    (htxs : (s.heap ts).txs = init ++ [tx]) (avail : Int) :
    ∃ s', s.remove tx.key = .ok (true, s') ∧ Evicted [ts] avail s (avail + tx.size) s' ∧
      (init ≠ [] → ts ∈ s'.orderedTxSets ∧ (s'.heap ts).txs = init) := by
  have htx : tx ∈ (s.heap ts).txs := by
    rw [htxs]
    exact mem_append_right _ (mem_singleton_self tx)
  have hnot : tx ∉ init := by
    have hnodup := (nodup_flatMap.1 h.nodup_txs).1 ts hts
    rw [htxs] at hnodup
    exact fun hmem => (nodup_append.1 hnodup).2.2 tx hmem tx (mem_singleton_self tx) rfl
  obtain ⟨s', hremove, hremoved⟩ := h.remove hts htx
  have hlookup := h.lookup_iff.2 ⟨ts, hts, htx⟩
  have hbytes := hremoved.bytes h hlookup
  refine ⟨s', hremove, ⟨hremoved.valid, by omega, .inr (hremoved.size_lt hlookup), fun a ha => ?_⟩,
    fun hne => ?_⟩
  · exact hremoved.other a (fun heq => ha (heq ▸ mem_singleton_self a))
  · have hlisted : ts ∈ s'.orderedTxSets := by
      by_contra hgone
      have hsole := hremoved.last hgone
      rw [htxs] at hsole
      exact hne (append_cancel_right (hsole.trans (nil_append [tx]).symm))
    refine ⟨hlisted, ?_⟩
    rw [hremoved.rest hlisted, htxs, erase_append_right _ hnot]
    simp

theorem evictFrom_spec (size : Int) (l : List WrappedTx) (h : s.Valid)
    (hl : l ≠ [] → ts ∈ s.orderedTxSets ∧ (s.heap ts).txs = l) (avail : Int) :
    ∃ avail' s', evictFrom size ts l.length (avail, s) = .ok (avail', s') ∧
      Evicted [ts] avail s avail' s' ∧ (avail' < size → avail' = avail + sizes l) := by
  -- From the end of the list: the removal of the last leaves the set with the ones before it.
  induction l using reverseRecOn generalizing s avail with
  | nil => exact ⟨avail, s, rfl, .refl h _, fun _ => (Int.add_zero avail).symm⟩
  | append_singleton l tx ih =>
    obtain ⟨hts, htxs⟩ := hl (by simp)
    rw [length_append, length_singleton, evictFrom]
    dsimp only
    by_cases hroom : avail < size
    · obtain ⟨s₁, hremove, hevicted, hrest⟩ := h.evict_last hts htxs avail
      obtain ⟨avail', s', hloop, hevicted', hused⟩ := ih hevicted.valid hrest (avail + tx.size)
      have hlast : (s.heap ts).txs[l.length]? = some tx := by
        rw [htxs]
        exact getElem?_concat_length
      refine ⟨avail', s', ?_, hevicted.trans hevicted', fun hlt => ?_⟩
      · rw [if_pos hroom, hlast]
        dsimp only
        rw [hremove]
        exact hloop
      · have hsum := hused hlt
        rw [sizes_append, sizes_cons, sizes_nil]
        omega
    · rw [if_neg hroom]
      exact ⟨avail, s, rfl, .refl h _, fun hlt => absurd hlt hroom⟩

theorem evictSets_spec (size : Int) {sets : List SetRef} (h : s.Valid) (hnodup : sets.Nodup)
    (hsets : ∀ a ∈ sets, a ∈ s.orderedTxSets) (avail : Int) :
    ∃ avail' s', evictSets size sets (avail, s) = .ok (avail', s') ∧
      Evicted sets avail s avail' s' ∧
      (avail' < size → avail' = avail + sizes (txsOf s.heap sets)) := by
  induction sets generalizing s avail with
  | nil => exact ⟨avail, s, rfl, .refl h _, fun _ => (Int.add_zero avail).symm⟩
  | cons a sets ih =>
    obtain ⟨hnot, hnodup⟩ := nodup_cons.1 hnodup
    have ha := hsets a (mem_cons_self ..)
    obtain ⟨avail₁, s₁, hfrom, hevicted, hused⟩ :=
      evictFrom_spec size (s.heap a).txs h (fun _ => ⟨ha, rfl⟩) avail
    have hevicted' : Evicted (a :: sets) avail s avail₁ s₁ :=
      hevicted.mono (cons_subset_cons a (nil_subset sets))
    have hother : ∀ b ∈ sets, s₁.heap b = s.heap b ∧ b ∈ s₁.orderedTxSets := by
      intro b hb
      obtain ⟨hheap, hlist⟩ :=
        hevicted.other b fun hmem => hnot (List.mem_singleton.1 hmem ▸ hb)
      exact ⟨hheap, hlist.2 (hsets b (mem_cons_of_mem _ hb))⟩
    rw [evictSets, hfrom]
    dsimp only [ok_bind]
    by_cases hroom : size ≤ avail₁
    · rw [if_pos hroom]
      exact ⟨avail₁, s₁, rfl, hevicted', fun hlt => absurd hroom (not_le.2 hlt)⟩
    obtain ⟨avail₂, s₂, hloop, hevicted₂, hused₂⟩ :=
      ih hevicted.valid hnodup (fun b hb => (hother b hb).2) avail₁
    rw [if_neg hroom]
    refine ⟨avail₂, s₂, hloop,
      hevicted'.trans (hevicted₂.mono (subset_cons_self a sets)), fun hlt => ?_⟩
    have hsum := hused₂ hlt
    have hsum₁ := hused (not_le.1 hroom)
    rw [txsOf_congr fun b hb => (hother b hb).1] at hsum
    rw [txsOf, flatMap_cons, sizes_append]
    rw [txsOf] at hsum
    omega

theorem Store.Valid.victims (h : s.Valid) (priority : Int) :
    (s.getTxSetsBelowPriority priority).1.Nodup ∧
      (∀ a ∈ (s.getTxSetsBelowPriority priority).1, a ∈ s.orderedTxSets) ∧
      (s.getTxSetsBelowPriority priority).2 =
        sizes (txsOf s.heap (s.getTxSetsBelowPriority priority).1) := by
  have hsub : (s.getTxSetsBelowPriority priority).1.Sublist s.orderedTxSets.reverse :=
    takeWhile_sublist _
  have hmem : ∀ a ∈ (s.getTxSetsBelowPriority priority).1, a ∈ s.orderedTxSets :=
    fun a ha => mem_reverse.1 (hsub.subset ha)
  refine ⟨(nodup_reverse.2 h.arranged.nodup).sublist hsub, hmem, ?_⟩
  rw [getTxSetsBelowPriority] at hmem ⊢
  dsimp only at hmem ⊢
  generalize takeWhile _ _ = l at hmem ⊢
  induction l with
  | nil => rfl
  | cons a l ih =>
    have hset := (h.arranged.listable a (hmem a (mem_cons_self ..))).wellFormed
    rw [map_cons, sum_cons, hset.bytes, ih fun b hb => hmem b (mem_cons_of_mem _ hb),
      txsOf, txsOf, flatMap_cons, sizes_append]

end Eviction

namespace TxPool
variable {config : MempoolConfig} {txmp txmp' : TxPool} {wtx : WrappedTx}

/-- What holds of the pool between calls, the limit if it can be met at all. -/
structure Within (config : MempoolConfig) (txmp : TxPool) : Prop where
  valid : txmp.store.Valid
  limit : 0 ≤ config.maxTxsBytes → txmp.sizeBytes ≤ config.maxTxsBytes

theorem canAddTx_iff {size : Int} : txmp.canAddTx config size ↔
    txmp.store.size ≤ config.size ∧ size + txmp.sizeBytes ≤ config.maxTxsBytes := by
  simp [canAddTx]

theorem makeRoom_spec (sorter : SliceSort) (h : txmp.Within config) (wtx : WrappedTx) :
    ∃ err txmp', txmp.makeRoom sorter config wtx = .ok (err, txmp') ∧ txmp'.store.Valid ∧
      (err = none → 0 ≤ config.maxTxsBytes →
        txmp'.sizeBytes + wtx.size ≤ config.maxTxsBytes) ∧ (err ≠ none → txmp' = txmp) ∧
      (txmp' = txmp ∨ txmp'.store.size < txmp.store.size) ∧
      (txmp.canAddTx config wtx.size → err = none ∧ txmp' = txmp) := by
  rw [makeRoom]
  split_ifs with hcan
  · refine ⟨none, txmp, rfl, h.valid, fun _ _ => ?_, fun hne => absurd rfl hne, .inl rfl,
      fun _ => ⟨rfl, rfl⟩⟩
    rw [canAddTx_iff] at hcan
    omega
  · dsimp only
    split_ifs with hfew
    · exact ⟨_, txmp, rfl, h.valid, nofun, fun _ => rfl, .inl rfl, (absurd · hcan)⟩
    obtain ⟨hnodup, hmem, hbytes⟩ :=
      h.valid.victims (txmp.store.aggregatedPriorityAfterAdd wtx)
    have hperm := sorter.perm (evictedBefore txmp.store.heap)
      (txmp.store.getTxSetsBelowPriority (txmp.store.aggregatedPriorityAfterAdd wtx)).1
    obtain ⟨avail, s, hevict, hevicted, hused⟩ :=
      evictSets_spec wtx.size h.valid (hperm.nodup_iff.2 hnodup)
        (fun a ha => hmem a (hperm.mem_iff.1 ha)) (txmp.availableBytes config)
    rw [hevict]
    refine ⟨none, _, rfl, hevicted.valid, fun _ hconfig => ?_, fun hne => absurd rfl hne,
      hevicted.count.imp (fun heq => by rw [heq]) id, (absurd · hcan)⟩
    have hlimit := h.limit hconfig
    have hreserved := hevicted.reserved
    have hroom : wtx.size ≤ avail := by
      by_contra hlt
      have hsum := hused (not_le.1 hlt)
      rw [sizes_perm (txsOf_perm hperm), ← hbytes, availableBytes] at hsum
      omega
    simp only [sizeBytes, Store.totalBytes, availableBytes] at hlimit hreserved ⊢
    omega

/-- A further transaction has room in bytes, in a pool that has all that it is to have. -/
def Outgrows (config : MempoolConfig) (txmp : TxPool) (tx : CachedTx) : Prop :=
  txmp.store.size = config.size ∧ tx.tx.length + txmp.sizeBytes ≤ config.maxTxsBytes ∧
    tx.key ∉ txmp.store.txs

/-- The outcome of a call: the limit on bytes holds, the number of transactions stays within its own
unless the call exceeds it, and a transaction that is refused because the pool is full
leaves the stored transactions as they are. -/
structure Kept (config : MempoolConfig) (txmp : TxPool) (exceeds : Prop) (err : Option TxError)
    (txmp' : TxPool) : Prop where
  within : txmp'.Within config
  count : 0 ≤ config.maxTxsBytes → txmp.store.size ≤ config.size →
    (txmp'.store.size ≤ config.size ↔ ¬exceeds)
  refused : ∀ txKey size sizeBytes, err = some (.full txKey size sizeBytes) →
    txmp'.store.txs = txmp.store.txs

theorem Kept.unchanged {exceeds : Prop} (h : txmp.Within config) (err : Option TxError)
    (hnot : ¬exceeds) : Kept config txmp exceeds err txmp :=
  ⟨h, fun _ hsize => iff_of_true hsize hnot, fun _ _ _ _ => rfl⟩

theorem Kept.congr {p q : Prop} {err : Option TxError} (h : Kept config txmp p err txmp')
    (hiff : p ↔ q) : Kept config txmp q err txmp' := propext hiff ▸ h

theorem addNewTransaction_spec (sorter : SliceSort) (h : txmp.Within config)
    (wtx : WrappedTx) : ∃ err txmp', txmp.addNewTransaction sorter config wtx = .ok (err, txmp') ∧
      Kept config txmp (txmp.Outgrows config ⟨wtx.tx, wtx.key⟩) err txmp' := by
  obtain ⟨err, room, hroom, hvalid, hfits, hrefused, hcount, hcan⟩ := makeRoom_spec sorter h wtx
  rw [canAddTx_iff] at hcan
  rw [addNewTransaction, hroom]
  dsimp only [ok_bind]
  have hsize := wtx.size_nonneg
  cases err with
  | some err =>
    rw [hrefused (by simp)]
    refine ⟨_, _, rfl, .unchanged h _ fun hgrows => ?_⟩
    exact absurd (hcan ⟨hgrows.1.le, hgrows.2.1⟩).1 (by simp)
  | none =>
    by_cases hmem : wtx.key ∈ room.store.txs
    · rw [Store.set_of_mem hmem]
      refine ⟨none, _, rfl, ⟨hvalid, fun hconfig => ?_⟩, fun hconfig hle => ?_, nofun⟩
      · have hlimit := hfits rfl hconfig
        simp only [sizeBytes, Store.totalBytes] at hlimit ⊢
        omega
      · refine iff_of_true ?_ fun hgrows => ?_
        · obtain rfl | hless := hcount
          · exact hle
          · exact (Int.ofNat_lt.2 hless).le.trans hle
        · obtain rfl := (hcan ⟨hgrows.1.le, hgrows.2.1⟩).2
          exact hgrows.2.2 hmem
    · obtain ⟨-, s, hset, hvalid', htxs, -⟩ := hvalid.set_new hmem
      rw [hset]
      refine ⟨none, _, rfl, ⟨hvalid', fun hconfig => ?_⟩, fun hconfig hle => ?_, nofun⟩
      · have hlimit := hfits rfl hconfig
        simp only [sizeBytes, Store.totalBytes] at hlimit ⊢
        rw [hvalid.bytes] at hlimit
        rw [hvalid'.bytes, htxs, values_insert hmem, sizes_cons]
        omega
      · have hnew : s.size = room.store.size + 1 := by
          rw [Store.size, Store.size, htxs, AList.entries_insert_of_notMem hmem, length_cons]
        simp only [hnew]
        constructor
        · intro hgrown hgrows
          obtain rfl := (hcan ⟨hgrows.1.le, hgrows.2.1⟩).2
          have := hgrows.1
          omega
        · intro hnot
          by_contra hmore
          obtain rfl | hless := hcount
          · exact hnot ⟨by omega, Int.add_comm .. ▸ hfits rfl hconfig, hmem⟩
          · omega

theorem Within.reserving (h : txmp.Within config) (reservedTxs : Table TxKey Unit) :
    Within config { txmp with store := { txmp.store with reservedTxs := reservedTxs } } :=
  ⟨⟨h.valid.keyed, h.valid.bytes, h.valid.stored, h.valid.arranged, h.valid.allocated,
    h.valid.bySigner⟩, h.limit⟩

/-- The hooks and the application take the transaction. -/
def Admits (txmp : TxPool) (inc : Incoming) : Prop :=
  txmp.preCheck inc.tx = none ∧ inc.connError = none ∧ ∃ rsp, inc.checkTx = .ok rsp ∧
    rsp.code = codeTypeOK ∧ txmp.postCheck inc.tx rsp = none

theorem tryReserved_spec (sorter : SliceSort) (h : txmp.Within config) (inc : Incoming) :
    ∃ err txmp', txmp.tryReserved sorter config inc = .ok (err, txmp') ∧
      Kept config txmp (txmp.Admits inc ∧ txmp.Outgrows config inc.tx) err txmp' := by
  rw [tryReserved, Admits]
  cases txmp.preCheck inc.tx with
  | some err => exact ⟨_, txmp, rfl, .unchanged h _ (by simp)⟩
  | none =>
    cases inc.connError with
    | some err => exact ⟨_, txmp, rfl, .unchanged h _ (by simp)⟩
    | none =>
      cases inc.checkTx with
      | error err => exact ⟨_, txmp, rfl, .unchanged h _ (by simp)⟩
      | ok rsp =>
        dsimp only
        split_ifs with hcode
        · exact ⟨_, txmp, rfl, .unchanged h _ (by simp [hcode])⟩
        · cases hpost : txmp.postCheck inc.tx rsp with
          | some err => exact ⟨_, txmp, rfl, .unchanged h _ (by simp [hpost])⟩
          | none =>
            obtain ⟨err, txmp', hadd, hkept⟩ := addNewTransaction_spec sorter h (txmp.wrap inc rsp)
            refine ⟨err, txmp', hadd, hkept.congr ⟨fun hgrows => ⟨?_, hgrows⟩, And.right⟩⟩
            exact ⟨rfl, rfl, rsp, rfl, not_not.1 hcode, hpost⟩

/-- The call stores a further transaction in a pool that has all that it is to have, and evicts
none. -/
def Exceeds (config : MempoolConfig) (txmp : TxPool) : PoolCall → Prop
  | .tryAddNewTx inc => inc.key ∉ txmp.store.txs ∧ inc.key ∉ txmp.store.reservedTxs ∧
    txmp.Admits inc ∧ txmp.Outgrows config inc.tx
  | _ => False

theorem tryAddNewTx_spec (sorter : SliceSort) (h : txmp.Within config) (inc : Incoming) :
    ∃ err txmp', txmp.tryAddNewTx sorter config inc = .ok (err, txmp') ∧
      Kept config txmp (txmp.Exceeds config (.tryAddNewTx inc)) err txmp' := by
  rw [tryAddNewTx, Store.reserve, Exceeds]
  dsimp only
  by_cases hmem : inc.key ∈ txmp.store.txs
  · rw [if_pos hmem]
    exact ⟨_, txmp, rfl, .unchanged h _ fun hexceeds => hexceeds.1 hmem⟩
  rw [if_neg hmem]
  by_cases hreserved : inc.key ∈ txmp.store.reservedTxs
  · simp only [if_pos hreserved]
    exact ⟨_, txmp, rfl, .unchanged h _ fun hexceeds => hexceeds.2.1 hreserved⟩
  simp only [if_neg hreserved]
  obtain ⟨err, txmp', htry, hkept⟩ :=
    tryReserved_spec sorter (h.reserving (txmp.store.reservedTxs.insert inc.key ())) inc
  rw [htry]
  refine ⟨err, _, rfl, hkept.within.reserving _, fun hconfig hsize => ?_, hkept.refused⟩
  exact (hkept.count hconfig hsize).trans
    (not_congr ⟨fun hgrows => ⟨hmem, hreserved, hgrows⟩, fun hexceeds => hexceeds.2.2⟩)

/-- What a call that removes transactions does. -/
structure Shrunk (config : MempoolConfig) (txmp txmp' : TxPool) : Prop where
  within : txmp'.Within config
  count : txmp'.store.size ≤ txmp.store.size

theorem Shrunk.refl (h : txmp.Within config) : Shrunk config txmp txmp := ⟨h, le_rfl⟩

theorem Shrunk.trans {txmp₁ : TxPool} (h : Shrunk config txmp txmp₁)
    (h' : Shrunk config txmp₁ txmp') : Shrunk config txmp txmp' :=
  ⟨h'.within, h'.count.trans h.count⟩

theorem Shrunk.kept (h : Shrunk config txmp txmp') : Kept config txmp False none txmp' :=
  ⟨h.within, fun _ hsize => iff_of_true ((Int.ofNat_le.2 h.count).trans hsize) id, nofun⟩

theorem removeTxByKey_spec (h : txmp.Within config) (txKey : TxKey) :
    ∃ txmp', txmp.removeTxByKey txKey = .ok txmp' ∧ Shrunk config txmp txmp' := by
  rw [removeTxByKey]
  cases hlookup : txmp.store.txs.lookup txKey with
  | none =>
    rw [Store.remove_of_notMem (AList.lookup_eq_none.1 hlookup)]
    exact ⟨_, rfl, .refl h⟩
  | some tx =>
    obtain rfl := h.valid.keyed _ _ hlookup
    obtain ⟨ts, hts, htx⟩ := h.valid.lookup_iff.1 hlookup
    obtain ⟨s', hremove, hremoved⟩ := h.valid.remove hts htx
    have hbytes := hremoved.bytes h.valid hlookup
    have hsize := tx.size_nonneg
    rw [hremove]
    refine ⟨_, rfl, ⟨hremoved.valid, fun hconfig => ?_⟩, (hremoved.size_lt hlookup).le⟩
    have hlimit := h.limit hconfig
    simp only [sizeBytes, Store.totalBytes] at hlimit ⊢
    omega

theorem flush_spec (txmp : TxPool) : Shrunk config txmp txmp.flush :=
  ⟨⟨.reset _, fun h => h⟩, Nat.zero_le _⟩

theorem Within.purge (h : txmp.Within config) (expirationHeight : Int) (expirationAge : Time) :
    ∃ r, txmp.store.purgeExpiredTxs expirationHeight expirationAge = .ok r ∧
      Shrunk config txmp { txmp with store := r.2 } := by
  obtain ⟨purged, s', hpurge, hvalid, hperm⟩ :=
    h.valid.purgeExpiredTxs expirationHeight expirationAge
  refine ⟨_, hpurge, ⟨hvalid, fun hconfig => ?_⟩, ?_⟩
  · have hsizes := sizes_perm hperm
    have hlimit := h.limit hconfig
    have hpurged := sizes_nonneg purged
    rw [sizes_append, ← h.valid.bytes, ← hvalid.bytes] at hsizes
    simp only [sizeBytes, Store.totalBytes] at hlimit ⊢
    omega
  · have hlength := hperm.length_eq
    simp only [length_append, length_values] at hlength
    simp only [Store.size]
    omega

theorem purgeExpiredTxs_spec (h : txmp.Within config) (blockHeight : Int) (now : Time) :
    ∃ txmp', txmp.purgeExpiredTxs config blockHeight now = .ok txmp' ∧
      Shrunk config txmp txmp' := by
  rw [purgeExpiredTxs]
  by_cases hoff : config.ttlNumBlocks = 0 ∧ config.ttlDuration = 0
  · rw [if_pos hoff]
    exact ⟨txmp, rfl, .refl h⟩
  obtain ⟨r, hpurge, hwithin⟩ := h.purge
    (if config.ttlNumBlocks = 0 then 0 else wrap64 (blockHeight - config.ttlNumBlocks))
    (if 0 < config.ttlDuration then now - config.ttlDuration else Time.zero)
  rw [if_neg hoff]
  dsimp only
  rw [hpurge]
  exact ⟨_, rfl, hwithin⟩

theorem foldlM_shrunk {α : Type} {f : TxPool → α → Except String TxPool}
    (hf : ∀ txmp a, txmp.Within config → ∃ txmp', f txmp a = .ok txmp' ∧ Shrunk config txmp txmp')
    (l : List α) (h : txmp.Within config) :
    ∃ txmp', l.foldlM f txmp = .ok txmp' ∧ Shrunk config txmp txmp' := by
  induction l generalizing txmp with
  | nil => exact ⟨txmp, rfl, .refl h⟩
  | cons a l ih =>
    obtain ⟨txmp₁, hstep, hshrunk⟩ := hf txmp a h
    obtain ⟨txmp', hloop, hshrunk'⟩ := ih hshrunk.within
    refine ⟨txmp', ?_, hshrunk.trans hshrunk'⟩
    rw [foldlM_cons, hstep]
    exact hloop

theorem recheckTransactions_spec (h : txmp.Within config) (hsize : 0 < txmp.store.size)
    (recheck : WrappedTx → Except String ResponseCheckTx) :
    ∃ txmp', txmp.recheckTransactions recheck = .ok txmp' ∧ Shrunk config txmp txmp' := by
  rw [recheckTransactions, if_neg (by omega)]
  refine foldlM_shrunk (fun txmp wtx h => ?_) _ h
  cases recheck wtx with
  | error err => exact ⟨txmp, rfl, .refl h⟩
  | ok rsp =>
    dsimp only [handleRecheckResult]
    split_ifs
    · exact ⟨txmp, rfl, .refl h⟩
    · exact removeTxByKey_spec h wtx.key

theorem update_spec (h : txmp.Within config) (com : Committed)
    (hmatched : com.blockTxs.length = com.deliverTxResponses) :
    ∃ txmp', txmp.update config com = .ok txmp' ∧ Shrunk config txmp txmp' := by
  rw [update, if_neg (not_not_intro hmatched)]
  dsimp only
  have h₀ : Shrunk config txmp { txmp with
      height := com.blockHeight
      preCheckFn := com.newPreFn.or txmp.preCheckFn
      postCheckFn := com.newPostFn.or txmp.postCheckFn } := ⟨⟨h.valid, h.limit⟩, le_rfl⟩
  obtain ⟨txmp₁, hremove, h₁⟩ :=
    foldlM_shrunk (f := fun (txmp : TxPool) (tx : CachedTx) => txmp.removeTxByKey tx.key)
      (fun txmp tx h => removeTxByKey_spec h tx.key) com.blockTxs h₀.within
  obtain ⟨txmp₂, hpurge, h₂⟩ := purgeExpiredTxs_spec h₁.within com.blockHeight com.now
  rw [hremove]
  dsimp only [bind, Except.bind]
  rw [hpurge]
  dsimp only
  split_ifs with hrecheck
  · obtain ⟨txmp₃, hrun, h₃⟩ := recheckTransactions_spec h₂.within hrecheck.1 com.recheck
    exact ⟨txmp₃, hrun, ((h₀.trans h₁).trans h₂).trans h₃⟩
  · exact ⟨txmp₂, rfl, (h₀.trans h₁).trans h₂⟩

end TxPool

/-- `Update` is given as many responses as transactions. -/
def PoolCall.Matched : PoolCall → Prop
  | .update com => com.blockTxs.length = com.deliverTxResponses
  | _ => True

namespace TxPool
variable {config : MempoolConfig} {txmp txmp' : TxPool}

theorem step_spec (sorter : SliceSort) (h : txmp.Within config) {call : PoolCall}
    (hmatched : call.Matched) :
    ∃ err txmp', txmp.step sorter config call = .ok (err, txmp') ∧
      Kept config txmp (txmp.Exceeds config call) err txmp' := by
  cases call with
  | tryAddNewTx inc => exact tryAddNewTx_spec sorter h inc
  | update com =>
    obtain ⟨txmp', hupdate, h'⟩ := update_spec h com hmatched
    refine ⟨none, txmp', ?_, h'.kept⟩
    rw [step, hupdate]
    rfl
  | removeTxByKey txKey =>
    obtain ⟨txmp', hremove, h'⟩ := removeTxByKey_spec h txKey
    refine ⟨none, txmp', ?_, h'.kept⟩
    rw [step, hremove]
    rfl
  | flush => exact ⟨none, txmp.flush, rfl, (flush_spec txmp).kept⟩

variable {sorter : SliceSort}

theorem Within.kept_of_step {call : PoolCall} {err : Option TxError}
    (h : txmp.Within config) (hstep : txmp.step sorter config call = .ok (err, txmp')) :
    Kept config txmp (txmp.Exceeds config call) err txmp' := by
  have hmatched : call.Matched := by
    cases call with
    | update com =>
      by_contra hnot
      have hpanics : com.blockTxs.length ≠ com.deliverTxResponses := hnot
      rw [step, update, if_pos hpanics] at hstep
      simp at hstep
    | _ => exact trivial
  obtain ⟨_, _, hstep', hkept⟩ := step_spec sorter h hmatched
  cases hstep.symm.trans hstep'
  exact hkept

theorem poolAfter_concat {height : Int} {calls : List PoolCall}
    {call : PoolCall} : poolAfter sorter config height (calls ++ [call]) = .ok txmp' ↔
      ∃ txmp err, poolAfter sorter config height calls = .ok txmp ∧
        txmp.step sorter config call = .ok (err, txmp') := by
  rw [poolAfter, foldlM_append, ← poolAfter]
  cases poolAfter sorter config height calls with
  | error err => simp
  | ok txmp =>
    cases hstep : txmp.step sorter config call with
    | error err => simp [hstep]
    | ok r => simp [hstep, Prod.ext_iff]

theorem within_after {height : Int} {calls : List PoolCall}
    (hrun : poolAfter sorter config height calls = .ok txmp) : txmp.Within config := by
  induction calls using reverseRecOn generalizing txmp with
  | nil =>
    cases hrun
    exact ⟨Store.valid_newStore, id⟩
  | append_singleton calls call ih =>
    obtain ⟨_, _, hbefore, hstep⟩ := poolAfter_concat.1 hrun
    exact ((ih hbefore).kept_of_step hstep).within

/-- In every pool that calls can lead to, the limit holds, each further call returns and keeps it,
and a transaction refused for lack of space has evicted none. -/
theorem bytes_within_limit (sorter : SliceSort)
    (config : MempoolConfig) (hconfig : 0 ≤ config.maxTxsBytes) (height : Int)
    (calls : List PoolCall) (txmp : TxPool) (hrun : poolAfter sorter config height calls = .ok txmp)
    (call : PoolCall) (hmatched : call.Matched) : txmp.sizeBytes ≤ config.maxTxsBytes ∧
      ∃ err txmp', txmp.step sorter config call = .ok (err, txmp') ∧
        txmp'.sizeBytes ≤ config.maxTxsBytes ∧
        ∀ txKey size sizeBytes, err = some (.full txKey size sizeBytes) →
          txmp'.store.txs = txmp.store.txs := by
  have h := within_after hrun
  obtain ⟨err, txmp', hstep, hkept⟩ := step_spec sorter h hmatched
  exact ⟨h.limit hconfig, err, txmp', hstep, hkept.within.limit hconfig, hkept.refused⟩

def insertionSorter : SliceSort where
  sort less l := l.insertionSort fun a b => less b a = false
  perm less l := perm_insertionSort _ l
  sorted less l hasymm hneg := by
    have htotal : Std.Total fun a b => less b a = false :=
      ⟨fun a b => by
        cases h : less b a with
        | false => exact .inl rfl
        | true => exact .inr (hasymm b a h)⟩
    have htrans : IsTrans SetRef fun a b => less b a = false :=
      ⟨fun a b c hba hcb => by
        cases h : less c a with
        | false => rfl
        | true =>
          rcases hneg c b a h with h | h
          · exact absurd h (by rw [hcb]; exact Bool.false_ne_true)
          · exact absurd h (by rw [hba]; exact Bool.false_ne_true)⟩
    exact pairwise_insertionSort _ l

def sampleIncoming (label : UInt8) (priority : Int) : Incoming :=
  ⟨⟨[label, label], [label]⟩, [label], false, label.toNat, none,
    .ok ⟨codeTypeOK, "", 1, priority, [label], 0⟩⟩

def sampleConfig : MempoolConfig := ⟨10, 3, 0, 0, false⟩

/-- A transaction of higher priority takes the place of the only one there is room for. -/
theorem bytes_within_limit_evicting :
    ∃ txmp, poolAfter insertionSorter sampleConfig 1 [.tryAddNewTx (sampleIncoming 1 1)] =
      .ok txmp ∧
      txmp.store.size = 1 ∧ txmp.sizeBytes ≤ sampleConfig.maxTxsBytes ∧
      ∃ err txmp', txmp.step insertionSorter sampleConfig (.tryAddNewTx (sampleIncoming 2 5)) =
          .ok (err, txmp') ∧
        txmp'.sizeBytes ≤ sampleConfig.maxTxsBytes ∧
        ∀ txKey size sizeBytes, err = some (.full txKey size sizeBytes) →
          txmp'.store.txs = txmp.store.txs :=
  ⟨_, rfl, by decide +kernel, bytes_within_limit insertionSorter sampleConfig (by decide) 1
    [.tryAddNewTx (sampleIncoming 1 1)] _ rfl (.tryAddNewTx (sampleIncoming 2 5)) trivial⟩

/-- The number of transactions never passes its limit exactly if no call stores one more in a full
pool that has the bytes for it: only then is none evicted. -/
theorem count_within_limit_iff (sorter : SliceSort) (config : MempoolConfig)
    (hconfig : 0 ≤ config.size ∧ 0 ≤ config.maxTxsBytes) (height : Int) (calls : List PoolCall) :
    (∀ before txmp, before <+: calls → poolAfter sorter config height before = .ok txmp →
      txmp.store.size ≤ config.size) ↔
    ∀ before call txmp, before ++ [call] <+: calls →
      poolAfter sorter config height before = .ok txmp → ¬txmp.Exceeds config call := by
  constructor
  · intro hcount before call txmp hpre hrun hexceeds
    have hmatched : call.Matched := by
      cases call with
      | tryAddNewTx inc => exact trivial
      | _ => exact hexceeds.elim
    obtain ⟨err, txmp', hstep, hkept⟩ := step_spec sorter (within_after hrun) hmatched
    have hsize := hcount before txmp ((prefix_append ..).trans hpre) hrun
    have hsize' := hcount _ txmp' hpre (poolAfter_concat.2 ⟨txmp, err, hrun, hstep⟩)
    exact (hkept.count hconfig.2 hsize).1 hsize' hexceeds
  · intro hcareful before
    induction before using reverseRecOn with
    | nil =>
      intro txmp _ hrun
      cases hrun
      exact hconfig.1
    | append_singleton before call ih =>
      intro txmp' hpre hrun
      obtain ⟨txmp, _, hbefore, hstep⟩ := poolAfter_concat.1 hrun
      have hsize := ih txmp ((prefix_append ..).trans hpre) hbefore
      exact (((within_after hbefore).kept_of_step hstep).count hconfig.2 hsize).2
        (hcareful before call txmp hpre hbefore)

/-- The third of three calls in a pool for two transactions evicts the first. -/
theorem count_within_limit_iff_evicting :
    ∃ txmp, poolAfter insertionSorter ⟨2, 5, 0, 0, false⟩ 1 [.tryAddNewTx (sampleIncoming 1 1),
        .tryAddNewTx (sampleIncoming 2 5), .tryAddNewTx (sampleIncoming 3 9)] = .ok txmp ∧
      txmp.store.size ≤ 2 ∧ [1] ∉ txmp.store.txs ∧ [3] ∈ txmp.store.txs := by
  have hcount := (count_within_limit_iff insertionSorter ⟨2, 5, 0, 0, false⟩ (by decide) 1
    [.tryAddNewTx (sampleIncoming 1 1), .tryAddNewTx (sampleIncoming 2 5),
      .tryAddNewTx (sampleIncoming 3 9)]).2 fun before call txmp hpre hrun hexceeds => ?_
  · exact ⟨_, rfl, Nat.cast_le.1 (hcount _ _ (prefix_refl _) rfl), by decide +kernel,
      by decide +kernel⟩
  · match before with
    | [] =>
      obtain rfl : call = .tryAddNewTx (sampleIncoming 1 1) := by simpa using hpre
      cases hrun
      exact absurd hexceeds.2.2.2.1 (by decide)
    | [_] =>
      obtain ⟨rfl, rfl⟩ : _ = PoolCall.tryAddNewTx (sampleIncoming 1 1) ∧
        call = .tryAddNewTx (sampleIncoming 2 5) := by simpa using hpre
      cases hrun
      exact absurd hexceeds.2.2.2.1 (by decide +kernel)
    | [_, _] =>
      obtain ⟨rfl, rfl, rfl⟩ : _ = PoolCall.tryAddNewTx (sampleIncoming 1 1) ∧
        _ = PoolCall.tryAddNewTx (sampleIncoming 2 5) ∧
        call = .tryAddNewTx (sampleIncoming 3 9) := by simpa using hpre
      cases hrun
      exact absurd hexceeds.2.2.2.2.1 (by decide +kernel)
    | _ :: _ :: _ :: _ => simp at hpre

/-- With a limit of one transaction there are three: the limit is passed by one, and past it the
bytes that are free suffice. -/
theorem count_exceeds_limit :
    ∃ txmp, poolAfter insertionSorter ⟨1, 100, 0, 0, false⟩ 1 [.tryAddNewTx (sampleIncoming 1 1),
        .tryAddNewTx (sampleIncoming 2 5), .tryAddNewTx (sampleIncoming 3 9)] = .ok txmp ∧
      txmp.store.size = 3 :=
  ⟨_, rfl, by decide +kernel⟩

end TxPool
end CelestiaCore.Mempool
