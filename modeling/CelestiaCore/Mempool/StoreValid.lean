import CelestiaCore.Mempool.Store

/-!
# The structure of the transaction store

The table of transactions, the table of signers and the ordered list say the same thing after every
sequence of calls, so no call panics.
-/
namespace CelestiaCore.Mempool
open Wire Keyed Table Function List WrappedTx

/-- Of higher priority, or of the same priority and not younger. -/
def TxSet.Ranks (t u : TxSet) : Prop :=
  u.aggregatedPriority < t.aggregatedPriority ∨
    t.aggregatedPriority = u.aggregatedPriority ∧ t.firstTimestamp ≤ u.firstTimestamp

def TxSet.rank (t : TxSet) : Lex (Intᵒᵈ × Time) :=
  toLex (.toDual t.aggregatedPriority, t.firstTimestamp)

theorem TxSet.outranks_iff {t u : TxSet} : t.outranks u = true ↔ t.rank < u.rank := by
  rw [rank, rank, Prod.Lex.toLex_lt_toLex, outranks]
  split_ifs with h
  · simp [h]
  · simp [Ne.symm h]

theorem TxSet.ranks_iff {t u : TxSet} : t.Ranks u ↔ t.rank ≤ u.rank := by
  rw [rank, rank, Prod.Lex.toLex_le_toLex]
  rfl

def txsOf (heap : SetRef → TxSet) (l : List SetRef) : List WrappedTx :=
  l.flatMap fun a => (heap a).txs

/-- A set that may stand in the ordered list. -/
structure TxSet.Listable (set : TxSet) : Prop where
  wellFormed : set.WellFormed
  nonempty : set.txs ≠ []
  single : set.signerKey = [] → set.txs.length = 1

/-- A list of sets in the order of their priorities. -/
structure Arranged (heap : SetRef → TxSet) (l : List SetRef) : Prop where
  nodup : l.Nodup
  listable : ∀ a ∈ l, (heap a).Listable
  ranked : l.Pairwise fun a b => (heap a).Ranks (heap b)

section Arranged
variable {heap : SetRef → TxSet} {l l' : List SetRef} {a : SetRef} {set : TxSet}

theorem Arranged.sublist (h : Arranged heap l) (hsub : l'.Sublist l) : Arranged heap l' :=
  ⟨h.nodup.sublist hsub, fun a ha => h.listable a (hsub.subset ha), h.ranked.sublist hsub⟩

theorem Arranged.congr {heap' : SetRef → TxSet} (h : Arranged heap l)
    (heq : ∀ a ∈ l, heap' a = heap a) : Arranged heap' l := by
  refine ⟨h.nodup, fun a ha => ?_, h.ranked.imp_of_mem fun ha hb hab => ?_⟩
  · rw [heq a ha]
    exact h.listable a ha
  · rw [heq _ ha, heq _ hb]
    exact hab

theorem Arranged.orderSet (h : Arranged heap l) (ha : a ∉ l) (hset : (heap a).Listable) :
    Arranged heap (Search.insertBefore (fun b => (heap a).outranks (heap b)) a l) := by
  have hperm := Search.insertBefore_perm (fun b => (heap a).outranks (heap b)) a l
  refine ⟨hperm.nodup_iff.2 (nodup_cons.2 ⟨ha, h.nodup⟩), fun b hb => ?_, ?_⟩
  · rcases mem_cons.1 (hperm.mem_iff.1 hb) with rfl | hb
    · exact hset
    · exact h.listable b hb
  · exact Search.insertBefore_ranked h.ranked (fun _ _ => TxSet.ranks_iff) fun _ =>
      TxSet.outranks_iff

theorem txsOf_congr {heap' : SetRef → TxSet} (heq : ∀ a ∈ l, heap' a = heap a) :
    txsOf heap' l = txsOf heap l :=
  flatMap_congr fun a ha => by rw [heq a ha]

theorem txsOf_perm (h : l.Perm l') : (txsOf heap l).Perm (txsOf heap l') := h.flatMap_right _

theorem txsOf_erase (ha : a ∈ l) : (txsOf heap l).Perm ((heap a).txs ++ txsOf heap (l.erase a)) :=
  txsOf_perm (perm_cons_erase ha)

theorem mem_txsOf {tx : WrappedTx} : tx ∈ txsOf heap l ↔ ∃ a ∈ l, tx ∈ (heap a).txs :=
  mem_flatMap

theorem update_eq_of_notMem (ha : a ∉ l) : ∀ b ∈ l, update heap a set b = heap b :=
  fun _ hb => update_of_ne (ne_of_mem_of_not_mem hb ha) _ _

theorem eq_of_mem_txs {tx : WrappedTx} {b : SetRef} (h : (txsOf heap l).Nodup) (ha : a ∈ l)
    (hb : b ∈ l) (hta : tx ∈ (heap a).txs) (htb : tx ∈ (heap b).txs) : a = b := by
  by_contra hne
  have hsymm : Std.Symm (onFun List.Disjoint fun a => (heap a).txs) :=
    ⟨fun _ _ hd => disjoint_symm hd⟩
  exact (nodup_flatMap.1 h).2.forall ha hb hne hta htb

end Arranged

namespace Store

structure Valid (s : Store) : Prop where
  keyed : KeyedBy WrappedTx.key s.txs
  bytes : s.bytes = sizes (values s.txs)
  stored : (values s.txs).Perm (txsOf s.heap s.orderedTxSets)
  arranged : Arranged s.heap s.orderedTxSets
  allocated : ∀ a ∈ s.orderedTxSets, a < s.allocated
  bySigner : ∀ signer a, s.setsBySigner.lookup signer = some a ↔
    signer ≠ [] ∧ a ∈ s.orderedTxSets ∧ (s.heap a).signerKey = signer

variable {s s' : Store} {wtx tx : WrappedTx} {ts : SetRef} {txKey : TxKey}

theorem Valid.nodup_txs (h : s.Valid) : (txsOf s.heap s.orderedTxSets).Nodup :=
  h.stored.nodup_iff.1 h.keyed.nodup_values

theorem Valid.lookup_iff (h : s.Valid) :
    s.txs.lookup tx.key = some tx ↔ ∃ a ∈ s.orderedTxSets, tx ∈ (s.heap a).txs := by
  rw [← mem_txsOf, ← h.stored.mem_iff]
  exact ⟨fun hk => mem_values.2 ⟨_, hk⟩, h.keyed.lookup_of_mem⟩

theorem Valid.lt_allocated (h : s.Valid) : s.allocated ∉ s.orderedTxSets :=
  fun ha => absurd (h.allocated _ ha) (lt_irrefl _)

theorem deleteOrderedSet_of_mem (h : ts ∈ s.orderedTxSets) :
    s.deleteOrderedSet ts = .ok { s with orderedTxSets := s.orderedTxSets.erase ts } := by
  rw [deleteOrderedSet, if_neg (ne_nil_of_mem h), if_pos h]

theorem mem_orderSet {a : SetRef} :
    a ∈ (s.orderSet ts).orderedTxSets ↔ a = ts ∨ a ∈ s.orderedTxSets :=
  ((Search.insertBefore_perm _ ts s.orderedTxSets).mem_iff).trans mem_cons

theorem Valid.of_orderSet (hkeyed : KeyedBy key s.txs)
    (hbytes : s.bytes = sizes (values s.txs)) (hts : ts ∉ s.orderedTxSets)
    (hstored : (values s.txs).Perm ((s.heap ts).txs ++ txsOf s.heap s.orderedTxSets))
    (harranged : Arranged s.heap s.orderedTxSets) (hset : (s.heap ts).Listable)
    (hallocated : ∀ a, a = ts ∨ a ∈ s.orderedTxSets → a < s.allocated)
    (hsigner : ∀ signer a, s.setsBySigner.lookup signer = some a ↔
      signer ≠ [] ∧ (a = ts ∨ a ∈ s.orderedTxSets) ∧ (s.heap a).signerKey = signer) :
    (s.orderSet ts).Valid := by
  refine ⟨hkeyed, hbytes, ?_, harranged.orderSet hts hset, fun a ha => ?_, fun signer a => ?_⟩
  · exact hstored.trans (txsOf_perm (Search.insertBefore_perm _ ts s.orderedTxSets)).symm
  · exact hallocated a (mem_orderSet.1 ha)
  · rw [mem_orderSet]
    exact hsigner signer a

/-- A transaction without a signer gets a set of its own, and so does the first of a signer. -/
theorem Valid.addNew (h : s.Valid) (hnew : wtx.key ∉ s.txs) {setsBySigner : Table Bytes SetRef}
    (hsigner : ∀ signer a, setsBySigner.lookup signer = some a ↔
      s.setsBySigner.lookup signer = some a ∨ signer ≠ [] ∧ a = s.allocated ∧ wtx.sender = signer) :
    (orderSet
      { s with
        txs := s.txs.insert wtx.key wtx
        bytes := s.bytes + wtx.size
        heap := update s.heap s.allocated (.newTxSet wtx)
        allocated := s.allocated + 1
        setsBySigner := setsBySigner } s.allocated).Valid := by
  have hfresh : ∀ b ∈ s.orderedTxSets,
      update s.heap s.allocated (.newTxSet wtx) b = s.heap b :=
    update_eq_of_notMem h.lt_allocated
  have hself : update s.heap s.allocated (.newTxSet wtx) s.allocated = .newTxSet wtx :=
    update_self ..
  refine Valid.of_orderSet (h.keyed.insert rfl) ?_ h.lt_allocated ?_
    (h.arranged.congr hfresh) ?_ (fun a ha => ?_) fun signer a => ?_
  · dsimp only
    rw [values_insert hnew, sizes_cons, h.bytes, Int.add_comm]
  · dsimp only
    rw [values_insert hnew, hself, txsOf_congr hfresh]
    exact h.stored.cons wtx
  · dsimp only
    rw [hself]
    exact ⟨TxSet.wellFormed_newTxSet wtx, cons_ne_nil _ _, fun _ => rfl⟩
  · rcases ha with rfl | ha
    · exact Nat.lt_succ_self _
    · exact Nat.lt_succ_of_lt (h.allocated a ha)
  · dsimp only
    rw [hsigner, h.bySigner]
    constructor
    · rintro (⟨hne, ha, hkey⟩ | ⟨hne, rfl, hkey⟩)
      · exact ⟨hne, .inr ha, by rw [hfresh a ha]; exact hkey⟩
      · exact ⟨hne, .inl rfl, by rw [hself]; exact hkey⟩
    · rintro ⟨hne, rfl | ha, hkey⟩
      · rw [hself] at hkey
        exact .inr ⟨hne, rfl, hkey⟩
      · rw [hfresh a ha] at hkey
        exact .inl ⟨hne, ha, hkey⟩

theorem Valid.reorder (h : s.Valid) (hts : ts ∈ s.orderedTxSets) {set : TxSet}
    (hset : set.Listable) (hsame : set.signerKey = (s.heap ts).signerKey)
    {txs : Table TxKey WrappedTx} {bytes : Int} (hkeyed : KeyedBy key txs)
    (hbytes : bytes = sizes (values txs))
    (hstored : (values txs).Perm (set.txs ++ txsOf s.heap (s.orderedTxSets.erase ts))) :
    (orderSet
      { s with
        txs := txs
        bytes := bytes
        orderedTxSets := s.orderedTxSets.erase ts
        heap := update s.heap ts set } ts).Valid := by
  have hnot : ts ∉ s.orderedTxSets.erase ts := h.arranged.nodup.not_mem_erase
  have hother : ∀ b ∈ s.orderedTxSets.erase ts, update s.heap ts set b = s.heap b :=
    update_eq_of_notMem hnot
  have hmem (a : SetRef) : a = ts ∨ a ∈ s.orderedTxSets.erase ts ↔ a ∈ s.orderedTxSets := by
    rw [(perm_cons_erase hts).mem_iff, mem_cons]
  have hkey (a : SetRef) : (update s.heap ts set a).signerKey = (s.heap a).signerKey := by
    by_cases ha : a = ts
    · rw [ha, update_self, hsame]
    · rw [update_of_ne ha]
  refine Valid.of_orderSet hkeyed hbytes hnot ?_ ?_ ?_ (fun a ha => ?_) fun signer a => ?_
  · dsimp only
    rwa [update_self, txsOf_congr hother]
  · exact (h.arranged.sublist erase_sublist).congr hother
  · dsimp only
    rwa [update_self]
  · exact h.allocated a ((hmem a).1 ha)
  · dsimp only
    rw [hmem, hkey]
    exact h.bySigner signer a

theorem Valid.dropSet (h : s.Valid) (hts : ts ∈ s.orderedTxSets) {heap : SetRef → TxSet}
    (hheap : ∀ a ∈ s.orderedTxSets.erase ts, heap a = s.heap a)
    {txs : Table TxKey WrappedTx} {bytes : Int} (hkeyed : KeyedBy key txs)
    (hbytes : bytes = sizes (values txs))
    (hstored : (values txs).Perm (txsOf s.heap (s.orderedTxSets.erase ts)))
    {setsBySigner : Table Bytes SetRef}
    (hsigner : ∀ signer, setsBySigner.lookup signer =
      if signer ≠ [] ∧ signer = (s.heap ts).signerKey then none
      else s.setsBySigner.lookup signer) :
    Valid
      { s with
        txs := txs
        bytes := bytes
        orderedTxSets := s.orderedTxSets.erase ts
        heap := heap
        setsBySigner := setsBySigner } := by
  refine ⟨hkeyed, hbytes, ?_, (h.arranged.sublist erase_sublist).congr hheap,
    fun a ha => h.allocated a (mem_of_mem_erase ha), fun signer a => ?_⟩
  · dsimp only
    rwa [txsOf_congr hheap]
  · dsimp only
    rw [hsigner]
    constructor
    · intro hlookup
      split_ifs at hlookup with hdropped
      obtain ⟨hne, ha, hkey⟩ := (h.bySigner signer a).1 hlookup
      have hal : a ∈ s.orderedTxSets.erase ts := by
        refine (mem_erase_of_ne ?_).2 ha
        rintro rfl
        exact hdropped ⟨hne, hkey.symm⟩
      exact ⟨hne, hal, by rw [hheap a hal]; exact hkey⟩
    · rintro ⟨hne, hal, hkey⟩
      rw [hheap a hal] at hkey
      have hlookup := (h.bySigner signer a).2 ⟨hne, mem_of_mem_erase hal, hkey⟩
      rw [if_neg, hlookup]
      rintro ⟨-, hdropped⟩
      have hts' := (h.bySigner signer ts).2 ⟨hne, hts, hdropped.symm⟩
      rw [hlookup, Option.some.injEq] at hts'
      exact h.arranged.nodup.not_mem_erase (hts' ▸ hal)

theorem set_of_mem (h : wtx.key ∈ s.txs) : s.set (some wtx) = .ok (false, s) := by
  rw [set, if_pos h]

/-- The set that a transaction is added to; without one it gets a set of its own. -/
def ownSet (s : Store) (wtx : WrappedTx) : Option SetRef :=
  if wtx.sender = [] then none else s.setsBySigner.lookup wtx.sender

/-- What the addition of a transaction does: it is in the table and in its set. -/
structure Added (s : Store) (wtx : WrappedTx) (ts : SetRef) (s' : Store) : Prop where
  valid : s'.Valid
  txs : s'.txs = s.txs.insert wtx.key wtx
  listed : ts ∈ s'.orderedTxSets
  own : s.ownSet wtx = none ∧ s'.heap ts = .newTxSet wtx ∨
    s.ownSet wtx = some ts ∧ ts ∈ s.orderedTxSets ∧ s'.heap ts = (s.heap ts).addTxToSet wtx

theorem Valid.set_new (h : s.Valid) (hnew : wtx.key ∉ s.txs) :
    ∃ ts s', s.set (some wtx) = .ok (true, s') ∧ Added s wtx ts s' := by
  rw [set, if_neg hnew, addToSets]
  split_ifs with hsender
  · refine ⟨s.allocated, _, rfl, h.addNew hnew fun signer a => ?_, rfl, mem_orderSet.2 (.inl rfl),
      .inl ⟨if_pos hsender, update_self ..⟩⟩
    rw [hsender]
    exact ⟨.inl, fun ha => ha.resolve_right fun ha => ha.1 ha.2.2.symm⟩
  · dsimp only
    have hown : s.ownSet wtx = s.setsBySigner.lookup wtx.sender := if_neg hsender
    cases hlookup : s.setsBySigner.lookup wtx.sender with
    | none =>
      refine ⟨s.allocated, _, rfl, h.addNew hnew fun signer a => ?_, rfl,
        mem_orderSet.2 (.inl rfl), .inl ⟨hown.trans hlookup, update_self ..⟩⟩
      dsimp only [alloc]
      rw [lookup_insert_eq]
      by_cases heq : signer = wtx.sender
      · rw [if_pos heq, heq, hlookup, Option.some.injEq]
        exact ⟨fun ha => .inr ⟨hsender, ha.symm, rfl⟩,
          fun ha => (ha.resolve_left (by simp)).2.1.symm⟩
      · rw [if_neg heq]
        exact ⟨.inl, fun ha => ha.resolve_right fun ha => heq ha.2.2.symm⟩
    | some ts =>
      obtain ⟨-, hts, hkey⟩ := (h.bySigner _ _).1 hlookup
      have hset := h.arranged.listable ts hts
      have hdelete := deleteOrderedSet_of_mem
        (s := { s with txs := s.txs.insert wtx.key wtx, bytes := s.bytes + wtx.size }) hts
      simp only [hdelete]
      refine ⟨ts, _, rfl, h.reorder hts ⟨?_, ?_, fun hempty => ?_⟩
        (TxSet.signerKey_addTxToSet hset.nonempty) (h.keyed.insert rfl) ?_ ?_, rfl,
        mem_orderSet.2 (.inl rfl), .inr ⟨hown.trans hlookup, hts, update_self ..⟩⟩
      · exact hset.wellFormed.addTxToSet hset.nonempty hkey.symm
      · intro hnil
        have hperm := TxSet.txs_addTxToSet (s.heap ts) wtx
        rw [show ((s.heap ts).addTxToSet wtx).txs = [] from hnil] at hperm
        exact absurd hperm.nil_eq (cons_ne_nil _ _).symm
      · rw [TxSet.signerKey_addTxToSet hset.nonempty, hkey] at hempty
        exact absurd hempty hsender
      · rw [values_insert hnew, sizes_cons, h.bytes, Int.add_comm]
      · rw [values_insert hnew]
        exact ((h.stored.trans (txsOf_erase hts)).cons wtx).trans
          ((TxSet.txs_addTxToSet (s.heap ts) wtx).symm.append_right _)

/-- What the removal of a transaction does: it leaves the table and its set, which goes with its
last one, and the other sets stay. -/
structure Removed (s : Store) (tx : WrappedTx) (ts : SetRef) (s' : Store) : Prop where
  valid : s'.Valid
  txs : s'.txs = s.txs.erase tx.key
  other : ∀ a, a ≠ ts → s'.heap a = s.heap a ∧ (a ∈ s'.orderedTxSets ↔ a ∈ s.orderedTxSets)
  last : ts ∉ s'.orderedTxSets → (s.heap ts).txs = [tx]
  rest : ts ∈ s'.orderedTxSets → (s'.heap ts).txs = (s.heap ts).txs.erase tx

theorem Valid.stored_erase (h : s.Valid) (hts : ts ∈ s.orderedTxSets) (htx : tx ∈ (s.heap ts).txs) :
    (values (s.txs.erase tx.key)).Perm
      ((s.heap ts).txs.erase tx ++ txsOf s.heap (s.orderedTxSets.erase ts)) := by
  refine h.keyed.values_erase_perm (h.stored.trans ((txsOf_erase hts).trans ?_))
  exact (perm_cons_erase htx).append_right _

theorem Valid.bytes_erase (h : s.Valid) (htx : s.txs.lookup tx.key = some tx) :
    s.bytes - tx.size = sizes (values (s.txs.erase tx.key)) := by
  have hperm := sizes_perm (values_erase htx)
  rw [sizes_cons, ← h.bytes] at hperm
  omega

theorem Valid.removeFromSets_unsigned (h : s.Valid) (hts : ts ∈ s.orderedTxSets)
    (htx : tx ∈ (s.heap ts).txs) (hsender : tx.sender = []) :
    ∃ s', removeFromSets { s with bytes := s.bytes - tx.size, txs := s.txs.erase tx.key } tx =
      .ok (true, s') ∧ Removed s tx ts s' := by
  have hlookup := h.lookup_iff.2 ⟨ts, hts, htx⟩
  have hset := h.arranged.listable ts hts
  have hkey : (s.heap ts).signerKey = [] := (hset.wellFormed.signer tx htx).symm.trans hsender
  have hsole : (s.heap ts).txs = [tx] := by
    obtain ⟨t, ht⟩ := length_eq_one_iff.1 (hset.single hkey)
    rw [ht] at htx ⊢
    rw [List.mem_singleton.1 htx]
  have hfound : decide ((s.heap ts).txs = [tx]) = true := decide_eq_true hsole
  obtain ⟨a, l₁, l₂, -, ha, hsplit, herase⟩ :=
    exists_of_eraseP (p := fun a => decide ((s.heap a).txs = [tx])) hts hfound
  obtain rfl : a = ts := by
    have hal : a ∈ s.orderedTxSets := by
      rw [hsplit]
      exact mem_append_right _ (mem_cons_self ..)
    refine eq_of_mem_txs h.nodup_txs hal hts ?_ htx
    rw [of_decide_eq_true ha]
    exact mem_singleton_self tx
  have hl₁ : a ∉ l₁ := fun hmem => nodup_middle.1 (hsplit ▸ h.arranged.nodup) |>.notMem
    (mem_append_left _ hmem)
  have hdrop : l₁ ++ l₂ = s.orderedTxSets.erase a := by
    rw [hsplit, erase_append_right _ hl₁, erase_cons_head]
  have hnot : a ∉ s.orderedTxSets.erase a := h.arranged.nodup.not_mem_erase
  have hstored := h.stored_erase hts htx
  rw [hsole, erase_cons_head, nil_append] at hstored
  rw [removeFromSets, if_pos hsender]
  dsimp only
  rw [if_pos (any_eq_true.2 ⟨a, hts, hfound⟩), herase, hdrop]
  refine ⟨_, rfl, h.dropSet hts (fun _ _ => rfl) (h.keyed.erase _) (h.bytes_erase hlookup) hstored
    (fun signer => ?_), rfl, fun b hb => ⟨rfl, mem_erase_of_ne hb⟩, fun _ => hsole,
    fun hmem => absurd hmem hnot⟩
  rw [hkey, if_neg fun hs => hs.1 hs.2]

theorem Valid.removeFromSets_signed (h : s.Valid) (hts : ts ∈ s.orderedTxSets)
    (htx : tx ∈ (s.heap ts).txs) (hsender : tx.sender ≠ []) :
    ∃ s', removeFromSets { s with bytes := s.bytes - tx.size, txs := s.txs.erase tx.key } tx =
      .ok (true, s') ∧ Removed s tx ts s' := by
  have hset := h.arranged.listable ts hts
  have hkey : (s.heap ts).signerKey = tx.sender := (hset.wellFormed.signer tx htx).symm
  have hlookup : s.setsBySigner.lookup tx.sender = some ts :=
    (h.bySigner _ _).2 ⟨hsender, hts, hkey⟩
  have hstored := h.stored_erase hts htx
  have hbytes := h.bytes_erase (h.lookup_iff.2 ⟨ts, hts, htx⟩)
  have hnot : ts ∉ s.orderedTxSets.erase ts := h.arranged.nodup.not_mem_erase
  obtain ⟨set, hremove⟩ := TxSet.exists_removeTx htx
  obtain ⟨-, hsame, htxs, -⟩ := TxSet.removeTx_eq_some hremove
  have hdelete := deleteOrderedSet_of_mem
    (s := { s with bytes := s.bytes - tx.size, txs := s.txs.erase tx.key }) hts
  rw [removeFromSets, if_neg hsender]
  dsimp only
  rw [hlookup]
  simp only [hdelete, ok_bind, hremove]
  split_ifs with hempty
  · refine ⟨_, rfl, h.dropSet hts (update_eq_of_notMem hnot) (h.keyed.erase _) hbytes ?_
      (fun signer => ?_), rfl,
      fun a ha => ⟨update_of_ne ha _ _, mem_erase_of_ne ha⟩, fun _ => ?_,
      fun hmem => absurd hmem hnot⟩
    · rwa [← htxs, hempty] at hstored
    · dsimp only [assign]
      rw [lookup_erase_eq, hkey]
      by_cases hs : signer = tx.sender
      · rw [if_pos hs, if_pos ⟨hs ▸ hsender, hs⟩]
      · rw [if_neg hs, if_neg fun h => hs h.2]
    · exact perm_singleton.1 ((perm_cons_erase htx).trans (by rw [← htxs, hempty]))
  · refine ⟨_, rfl, h.reorder hts ⟨hset.wellFormed.removeTx hremove, hempty, fun hs => ?_⟩ hsame
      (h.keyed.erase _) hbytes (by rwa [htxs]), rfl, fun a ha => ⟨update_of_ne ha _ _, ?_⟩,
      fun hmem => absurd (mem_orderSet.2 (.inl rfl)) hmem, fun _ => ?_⟩
    · exact absurd ((hkey.symm.trans hsame.symm).trans hs) hsender
    · rw [mem_orderSet]
      exact (or_iff_right ha).trans (mem_erase_of_ne ha)
    · exact (congrArg TxSet.txs (update_self ..)).trans htxs

theorem Valid.remove (h : s.Valid) (hts : ts ∈ s.orderedTxSets) (htx : tx ∈ (s.heap ts).txs) :
    ∃ s', s.remove tx.key = .ok (true, s') ∧ Removed s tx ts s' := by
  rw [Store.remove, h.lookup_iff.2 ⟨ts, hts, htx⟩]
  by_cases hsender : tx.sender = []
  · exact h.removeFromSets_unsigned hts htx hsender
  · exact h.removeFromSets_signed hts htx hsender

theorem Valid.reset (s : Store) : s.reset.Valid := by
  refine ⟨fun k v hk => ?_, rfl, .refl _, ⟨nodup_nil, ?_, .nil⟩, ?_, fun signer a => ?_⟩
  · exact absurd hk (by simp [Store.reset])
  · exact nofun
  · exact nofun
  · exact iff_of_false (by simp [Store.reset]) fun h => absurd h.2.1 not_mem_nil

theorem valid_newStore : newStore.Valid := .reset newStore

/-- A step of the purge takes a set out of the store with all its transactions, or does nothing. -/
theorem Valid.purgeSet (h : s.Valid) (hts : ts ∈ s.orderedTxSets) (height : Int) (age : Time)
    (purged : List WrappedTx) :
    ∃ purged' s', Store.purgeSet height age (purged, s) ts = .ok (purged', s') ∧ s'.Valid ∧
      (∀ a, a ≠ ts → a ∈ s.orderedTxSets → a ∈ s'.orderedTxSets) ∧
      (purged ++ values s.txs).Perm (purged' ++ values s'.txs) := by
  rw [Store.purgeSet]
  dsimp only
  by_cases hexpired : (s.heap ts).firstHeight < height ∨ (s.heap ts).firstTimestamp < age
  · rw [if_pos hexpired]
    have hstored := h.stored.trans (txsOf_erase hts)
    obtain ⟨hkeyed, hrest⟩ := h.keyed.foldl_erase hstored
    have hset := (h.arranged.listable ts hts).wellFormed
    rw [deleteOrderedSet_of_mem hts]
    refine ⟨_, _, rfl, h.dropSet hts (fun _ _ => rfl) hkeyed ?_ hrest fun signer => ?_,
      fun a ha hmem => ?_, ?_⟩
    · have hsizes := sizes_perm hstored
      rw [sizes_append, ← hset.bytes, ← h.bytes, ← sizes_perm hrest] at hsizes
      dsimp only
      omega
    · dsimp only
      by_cases hs : (s.heap ts).signerKey = []
      · rw [if_neg (not_not_intro hs), hs, if_neg fun h => h.1 h.2]
      · rw [if_pos hs, lookup_erase_eq]
        by_cases heq : signer = (s.heap ts).signerKey
        · rw [if_pos heq, if_pos ⟨heq ▸ hs, heq⟩]
        · rw [if_neg heq, if_neg fun h => heq h.2]
    · exact (mem_erase_of_ne ha).2 hmem
    · rw [append_assoc]
      exact (hstored.trans (hrest.symm.append_left _)).append_left _
  · rw [if_neg hexpired]
    exact ⟨purged, s, rfl, h, fun _ _ hmem => hmem, .refl _⟩

theorem Valid.purgeLoop (h : s.Valid) {l : List SetRef} (hnodup : l.Nodup)
    (hl : ∀ a ∈ l, a ∈ s.orderedTxSets) (height : Int) (age : Time) (purged : List WrappedTx) :
    ∃ purged' s', l.foldlM (Store.purgeSet height age) (purged, s) = .ok (purged', s') ∧
      s'.Valid ∧ (purged ++ values s.txs).Perm (purged' ++ values s'.txs) := by
  -- The sets that are still to be looked at are still listed, since a step takes out only its own.
  induction l generalizing s purged with
  | nil => exact ⟨purged, s, rfl, h, .refl _⟩
  | cons a l ih =>
    obtain ⟨hnot, hnodup⟩ := nodup_cons.1 hnodup
    obtain ⟨purged₁, s₁, hstep, hvalid, hkeep, hperm⟩ :=
      h.purgeSet (hl a (mem_cons_self ..)) height age purged
    obtain ⟨purged₂, s₂, hloop, hvalid₂, hperm₂⟩ := ih hvalid hnodup
      (fun b hb => hkeep b (ne_of_mem_of_not_mem hb hnot) (hl b (mem_cons_of_mem _ hb))) purged₁
    refine ⟨purged₂, s₂, ?_, hvalid₂, hperm.trans hperm₂⟩
    rw [foldlM_cons, hstep]
    exact hloop

theorem Valid.purgeExpiredTxs (h : s.Valid) (height : Int) (age : Time) :
    ∃ purged s', s.purgeExpiredTxs height age = .ok ((purged, purged.length), s') ∧ s'.Valid ∧
      (values s.txs).Perm (purged ++ values s'.txs) := by
  obtain ⟨purged, s', hloop, hvalid, hperm⟩ :=
    h.purgeLoop h.arranged.nodup (fun _ ha => ha) height age []
  refine ⟨purged, s', ?_, hvalid, hperm⟩
  rw [Store.purgeExpiredTxs, hloop]
  rfl

theorem remove_of_notMem (h : txKey ∉ s.txs) : s.remove txKey = .ok (false, s) := by
  rw [Store.remove, AList.lookup_eq_none.2 h]

theorem Valid.step (h : s.Valid) (call : StoreCall) : ∃ s', s.step call = .ok s' ∧ s'.Valid := by
  cases call with
  | set wtx =>
    cases wtx with
    | none => exact ⟨s, rfl, h⟩
    | some wtx =>
      by_cases hmem : wtx.key ∈ s.txs
      · refine ⟨s, ?_, h⟩
        rw [Store.step, set_of_mem hmem]
        rfl
      · obtain ⟨ts, s', hset, hadded⟩ := h.set_new hmem
        refine ⟨s', ?_, hadded.valid⟩
        rw [Store.step, hset]
        rfl
  | remove txKey =>
    cases hlookup : s.txs.lookup txKey with
    | none =>
      refine ⟨s, ?_, h⟩
      rw [Store.step, remove_of_notMem (AList.lookup_eq_none.1 hlookup)]
      rfl
    | some tx =>
      obtain rfl := h.keyed _ _ hlookup
      obtain ⟨ts, hts, htx⟩ := h.lookup_iff.1 hlookup
      obtain ⟨s', hremove, hremoved⟩ := h.remove hts htx
      refine ⟨s', ?_, hremoved.valid⟩
      rw [Store.step, hremove]
      rfl
  | purgeExpiredTxs height age =>
    obtain ⟨purged, s', hpurge, hvalid, -⟩ := h.purgeExpiredTxs height age
    refine ⟨s', ?_, hvalid⟩
    rw [Store.step, hpurge]
    rfl
  | reset => exact ⟨s.reset, rfl, .reset s⟩

theorem valid_run (h : s.Valid) (calls : List StoreCall) :
    ∃ s', calls.foldlM step s = .ok s' ∧ s'.Valid := by
  induction calls generalizing s with
  | nil => exact ⟨s, rfl, h⟩
  | cons call calls ih =>
    obtain ⟨s₁, hstep, hvalid⟩ := h.step call
    obtain ⟨s', hrun, hvalid'⟩ := ih hvalid
    refine ⟨s', ?_, hvalid'⟩
    rw [foldlM_cons, hstep]
    exact hrun

structure Consistent (s : Store) : Prop where
  /-- The byte counter is the sum of the sizes of the stored transactions. -/
  bytes : s.totalBytes = sizes (values s.txs)
  /-- A stored transaction is under its key, in one set and there once. -/
  in_one_set : ∀ k tx, s.txs.lookup k = some tx → tx.key = k ∧
    ∃! a, a ∈ s.orderedTxSets ∧ (s.heap a).txs.count tx = 1
  /-- A transaction in a set is stored. -/
  stored : ∀ a ∈ s.orderedTxSets, ∀ tx ∈ (s.heap a).txs, s.txs.lookup tx.key = some tx
  /-- The table of signers and the list have the same sets of signers, each once. -/
  signers : ∀ signer a, s.setsBySigner.lookup signer = some a ↔
    signer ≠ [] ∧ a ∈ s.orderedTxSets ∧ (s.heap a).signerKey = signer
  once : s.orderedTxSets.Nodup
  /-- A set holds transactions of its signer, and one transaction if it has no signer. -/
  own : ∀ a ∈ s.orderedTxSets, (∀ tx ∈ (s.heap a).txs, tx.sender = (s.heap a).signerKey) ∧
    ((s.heap a).signerKey = [] → (s.heap a).txs.length = 1)
  nonempty : ∀ a ∈ s.orderedTxSets, (s.heap a).txs ≠ []
  /-- A set is sorted by sequence number. -/
  by_sequence : ∀ a ∈ s.orderedTxSets, (s.heap a).txs.Pairwise fun t u => t.sequence ≤ u.sequence
  /-- The list is sorted by priority, and by first timestamp among equal priorities. -/
  by_priority : s.orderedTxSets.Pairwise fun a b =>
    (s.heap b).aggregatedPriority < (s.heap a).aggregatedPriority ∨
      (s.heap a).aggregatedPriority = (s.heap b).aggregatedPriority ∧
        (s.heap a).firstTimestamp ≤ (s.heap b).firstTimestamp

theorem Valid.consistent (h : s.Valid) : s.Consistent := by
  refine ⟨h.bytes, fun k tx hk => ⟨h.keyed k tx hk, ?_⟩, fun a ha tx htx => ?_, h.bySigner,
    h.arranged.nodup, fun a ha => ?_, fun a ha => (h.arranged.listable a ha).nonempty,
    fun a ha => ?_, h.arranged.ranked⟩
  · rw [← h.keyed k tx hk] at hk
    obtain ⟨a, ha, htx⟩ := h.lookup_iff.1 hk
    have hnodup := (nodup_flatMap.1 h.nodup_txs).1
    refine ⟨a, ⟨ha, count_eq_one_of_mem (hnodup a ha) htx⟩, fun b ⟨hb, hcount⟩ => ?_⟩
    exact eq_of_mem_txs h.nodup_txs hb ha
      (count_pos_iff.1 (by rw [hcount]; exact Nat.one_pos)) htx
  · exact h.lookup_iff.2 ⟨a, ha, htx⟩
  · have hset := h.arranged.listable a ha
    exact ⟨hset.wellFormed.signer, hset.single⟩
  · refine (h.arranged.listable a ha).wellFormed.sorted.imp fun htu => ?_
    rcases htu with htu | htu
    · exact htu.le
    · exact htu.1.le

/-- After every sequence of calls the store is consistent, and no call panics. -/
theorem consistent_after (calls : List StoreCall) :
    ∃ s, storeAfter calls = .ok s ∧ s.Consistent := by
  obtain ⟨s, hrun, hvalid⟩ := valid_run valid_newStore calls
  exact ⟨s, hrun, hvalid.consistent⟩

/-! ## The predicted priority -/

/-- The weight of a transaction does not overflow, or it has no gas and no priority; a set that is
there has gas after the addition, or has no priority to keep. -/
def Predictable (s : Store) (wtx : WrappedTx) : Prop :=
  match s.ownSet wtx with
  | none =>
    if 0 < wtx.gasWanted then
      minInt64 ≤ wtx.priority * wtx.gasWanted ∧ wtx.priority * wtx.gasWanted ≤ maxInt64
    else wtx.priority = 0
  | some ts =>
    0 < wrap64 ((s.heap ts).totalGasWanted + wtx.gasWanted) ∨ (s.heap ts).aggregatedPriority = 0

theorem wrap64_wrap64 (n : Int) : wrap64 (wrap64 n) = wrap64 n := by
  simp [wrap64]

/-- A weight that wraps around is off by more than the gas, and so is the quotient. -/
theorem wrap64_mul_tdiv_iff {priority gas : Int} (hpos : 0 < gas) (hgas : gas ≤ maxInt64) :
    (wrap64 (priority * gas)).tdiv gas = priority ↔
      minInt64 ≤ priority * gas ∧ priority * gas ≤ maxInt64 := by
  rw [maxInt64] at hgas
  rw [minInt64, maxInt64]
  constructor
  · intro hquot
    have hdiv := Int.mul_tdiv_add_tmod (wrap64 (priority * gas)) gas
    have hlt := Int.tmod_lt_of_pos (wrap64 (priority * gas)) hpos
    have hgt := Int.lt_tmod_of_pos (wrap64 (priority * gas)) hpos
    rw [hquot, Int.mul_comm gas] at hdiv
    generalize priority * gas = weight at *
    simp only [wrap64, Int.bmod] at *
    omega
  · rintro ⟨hlow, hhigh⟩
    rw [wrap64_of_range (by omega) (by omega), Int.mul_tdiv_cancel _ hpos.ne']

theorem aggregatedPriorityAfterAdd_eq_of_own (s : Store) (wtx : WrappedTx) :
    s.aggregatedPriorityAfterAdd wtx =
      match s.ownSet wtx with
      | none => wtx.priority
      | some ts => TxSet.average
          (wrap64 ((s.heap ts).weightedPrioritySum + wrap64 (wtx.priority * wtx.gasWanted)))
          (wrap64 ((s.heap ts).totalGasWanted + wtx.gasWanted)) 0 := by
  unfold aggregatedPriorityAfterAdd ownSet TxSet.average
  grind

/-- The priority that decides on evictions is the one that the set of the transaction then has,
exactly if the transaction is predictable. -/
theorem aggregatedPriorityAfterAdd_eq_iff (calls : List StoreCall) (s : Store)
    (hrun : storeAfter calls = .ok s) (wtx : WrappedTx) (hnew : wtx.key ∉ s.txs)
    (hgas : minInt64 ≤ wtx.gasWanted ∧ wtx.gasWanted ≤ maxInt64) :
    ∃ ts s', s.set (some wtx) = .ok (true, s') ∧
      (∀ a ∈ s'.orderedTxSets, wtx ∈ (s'.heap a).txs ↔ a = ts) ∧ ts ∈ s'.orderedTxSets ∧
      ((s'.heap ts).aggregatedPriority = s.aggregatedPriorityAfterAdd wtx ↔
        s.Predictable wtx) := by
  obtain ⟨t, ht, hvalid⟩ := valid_run valid_newStore calls
  obtain rfl := Except.ok.inj (ht.symm.trans hrun)
  obtain ⟨ts, s', hset, hadded⟩ := hvalid.set_new hnew
  have hin : wtx ∈ (s'.heap ts).txs := by
    obtain ⟨-, hheap⟩ | ⟨-, -, hheap⟩ := hadded.own
    · rw [hheap]
      exact mem_singleton_self wtx
    · rw [hheap]
      exact (TxSet.txs_addTxToSet _ wtx).mem_iff.2 (mem_cons_self ..)
  refine ⟨ts, s', hset, fun a ha => ⟨fun hwtx => ?_, fun heq => heq ▸ hin⟩, hadded.listed, ?_⟩
  · exact eq_of_mem_txs hadded.valid.nodup_txs ha hadded.listed hwtx hin
  rw [aggregatedPriorityAfterAdd_eq_of_own, Predictable]
  obtain ⟨hown, hheap⟩ | ⟨hown, hmem, hheap⟩ := hadded.own
  · have hgas' : wrap64 wtx.gasWanted = wtx.gasWanted :=
      wrap64_of_range hgas.1 (Int.lt_add_one_of_le hgas.2)
    rw [hown, hheap]
    simp only [TxSet.newTxSet, TxSet.addTxToSet, TxSet.empty, if_pos, TxSet.average, Int.zero_add,
      hgas', wrap64_wrap64]
    split_ifs with hpos
    · exact wrap64_mul_tdiv_iff hpos hgas.2
    · exact eq_comm
  · have hne := (hvalid.arranged.listable ts hmem).nonempty
    rw [hown, hheap]
    simp only [TxSet.addTxToSet, if_neg hne, TxSet.average]
    split_ifs with hpos
    · simp [hpos]
    · simp [hpos]

def sampleTx (label : UInt8) (gasWanted : Int) : WrappedTx :=
  ⟨[label], [label], 10, 10, gasWanted, 7, [1], label.toNat, false⟩

theorem aggregatedPriorityAfterAdd_eq_iff_second :
    ∃ s ts s', storeAfter [.set (some (sampleTx 1 5))] = .ok s ∧
      s.set (some (sampleTx 2 3)) = .ok (true, s') ∧ ts ∈ s'.orderedTxSets ∧
      sampleTx 2 3 ∈ (s'.heap ts).txs ∧
      (s'.heap ts).aggregatedPriority = s.aggregatedPriorityAfterAdd (sampleTx 2 3) := by
  obtain ⟨ts, s', hset, hin, hts, hiff⟩ := aggregatedPriorityAfterAdd_eq_iff
    [.set (some (sampleTx 1 5))] _ rfl (sampleTx 2 3) (by decide) (by decide)
  exact ⟨_, ts, s', rfl, hset, hts, (hin ts hts).2 rfl, hiff.2 (.inl (by decide))⟩

/-- The first transaction of a signer has priority 7 and takes no gas: 7 is predicted, and its set
has priority 0. -/
theorem predicted_without_gas : newStore.aggregatedPriorityAfterAdd (sampleTx 1 0) = 7 ∧
      ∃ s', newStore.set (some (sampleTx 1 0)) = .ok (true, s') ∧
        (s'.orderedTxSets.map fun a => ((s'.heap a).txs, (s'.heap a).aggregatedPriority)) =
          [([sampleTx 1 0], 0)] :=
  ⟨rfl, _, rfl, by decide +kernel⟩

end Store
end CelestiaCore.Mempool
