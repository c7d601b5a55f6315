import CelestiaCore.Mempool.SeenTracker

/-!
# The accounts of the tracker of seen transactions

The counts depend on the peers that the entries list and the queues on their pending infos, so each
call is looked at once for each. -/
namespace CelestiaCore.Mempool
open Wire Keyed Table AList Option
open List (mem_cons mem_cons_self not_mem_nil)
open Function (update_self update_of_ne update comp_update update_eq_self)

/-! ## Counting -/

/-- The count of a peer is the number of entries that list it, and within the limit. -/
structure Counts (entries : List EntryRef) (peers : EntryRef → Table UInt16 Unit) (limit : ℕ)
    (count : UInt16 → Int) : Prop where
  eq : ∀ p, count p = entries.countP fun a => p ∈ peers a
  le : ∀ p, count p ≤ limit

section Lists
variable {l l' : List EntryRef} {a : EntryRef}

theorem countP_eq_erase (l : List EntryRef) (a : EntryRef) (q : EntryRef → Bool) :
    l.countP q = (l.erase a).countP q + if a ∈ l ∧ q a then 1 else 0 := by
  by_cases ha : a ∈ l
  · rw [(List.perm_cons_erase ha).countP_eq, List.countP_cons]
    simp [ha]
  · simp [ha, List.erase_of_not_mem]

/-- An entry is taken up or dropped, or lists other peers. -/
theorem Counts.change {peers peers' : EntryRef → Table UInt16 Unit} {limit : ℕ}
    {count count' : UInt16 → Int} (h : Counts l peers limit count) (hnodup : l.Nodup)
    (hnodup' : l'.Nodup) (hother : ∀ b, b ≠ a → (b ∈ l' ↔ b ∈ l) ∧ peers' b = peers b)
    (hcount : ∀ p, (count' p + if a ∈ l ∧ p ∈ peers a then 1 else 0) =
      count p + if a ∈ l' ∧ p ∈ peers' a then 1 else 0)
    (hroom : ∀ p, a ∈ l' → p ∈ peers' a → (a ∈ l ∧ p ∈ peers a) ∨ count p < limit) :
    Counts l' peers' limit count' := by
  have hrest (p : UInt16) : (l'.erase a).countP (fun b => p ∈ peers' b) =
      (l.erase a).countP fun b => p ∈ peers b := by
    have hperm : (l'.erase a).Perm (l.erase a) := by
      refine (List.perm_ext_iff_of_nodup (hnodup'.erase a) (hnodup.erase a)).2 fun b => ?_
      rw [hnodup'.mem_erase_iff, hnodup.mem_erase_iff]
      exact and_congr_right fun hb => (hother b hb).1
    rw [hperm.countP_eq]
    refine List.countP_congr fun b hb => ?_
    rw [(hother b (hnodup.mem_erase_iff.1 hb).1).2]
  refine ⟨fun p => ?_, fun p => ?_⟩
  · have hc := hcount p
    rw [h.eq, countP_eq_erase l a] at hc
    rw [countP_eq_erase l' a, hrest]
    simp only [decide_eq_true_eq] at hc ⊢
    push_cast at hc ⊢
    omega
  · have hc := hcount p
    have hle := h.le p
    have hp := hroom p
    split_ifs at hc with h₁ h₂ <;> grind

/-! ## Queueing -/

def sequenceIn (info : EntryRef → Option PendingTxInfo) (a : EntryRef) : ℕ :=
  ((info a).map PendingTxInfo.sequence).getD 0

/-- A queue is sorted by sequence number and holds the entries whose pending info names the signer,
each once. -/
structure Lined (entries : List EntryRef) (info : EntryRef → Option PendingTxInfo)
    (signerKey : Bytes) (queue : List EntryRef) : Prop where
  sorted : queue.Pairwise fun a b => sequenceIn info a ≤ sequenceIn info b
  nodup : queue.Nodup
  exact : ∀ a, a ∈ queue ↔ a ∈ entries ∧ ∃ sequence, info a = some ⟨signerKey, sequence⟩

variable {info info' : EntryRef → Option PendingTxInfo} {signerKey : Bytes} {q q' : List EntryRef}

/-- Entries leave a queue when their pending info goes, or they themselves. -/
theorem Lined.sublist (h : Lined l info signerKey q) (hsub : q'.Sublist q)
    (hkeep : ∀ b ∈ q', b ∈ l' ∧ info' b = info b)
    (hgone : ∀ b ∉ q', b ∈ l' → ∀ sequence, info' b ≠ some ⟨signerKey, sequence⟩) :
    Lined l' info' signerKey q' := by
  refine ⟨(h.sorted.sublist hsub).imp_of_mem fun hb hc hle => ?_, h.nodup.sublist hsub,
    fun b => ?_⟩
  · rwa [sequenceIn, sequenceIn, (hkeep _ hb).2, (hkeep _ hc).2]
  · by_cases hb : b ∈ q'
    · rw [(hkeep b hb).2]
      exact iff_of_true hb ⟨(hkeep b hb).1, ((h.exact b).1 (hsub.subset hb)).2⟩
    · exact iff_of_false hb fun hl => hl.2.elim (hgone b hb hl.1)

theorem Lined.erase (h : Lined l info signerKey q)
    (hother : ∀ b, b ≠ a → (b ∈ l' ↔ b ∈ l) ∧ info' b = info b) (hgone : a ∈ l' → info' a = none) :
    Lined l' info' signerKey (q.erase a) := by
  refine h.sublist List.erase_sublist (fun b hb => ?_) fun b hb hl sequence hinfo => hb ?_
  · obtain ⟨hba, hb⟩ := h.nodup.mem_erase_iff.1 hb
    exact ⟨(hother b hba).1.2 ((h.exact b).1 hb).1, (hother b hba).2⟩
  · have hba : b ≠ a := by
      rintro rfl
      rw [hgone hl] at hinfo
      cases hinfo
    rw [h.nodup.mem_erase_iff, h.exact, ← (hother b hba).1, ← (hother b hba).2]
    exact ⟨hba, hl, sequence, hinfo⟩

theorem Lined.notMem (h : Lined l info signerKey q) (hinfo : info a = none) : a ∉ q := by
  intro ha
  obtain ⟨-, sequence, hsome⟩ := (h.exact a).1 ha
  rw [hinfo] at hsome
  cases hsome

theorem Lined.insert (h : Lined l info signerKey q) (ha : a ∈ l) (hinfo : info a = none)
    (sequence : ℕ) : Lined l (update info a (some ⟨signerKey, sequence⟩)) signerKey
      (Search.insertBefore (fun b => sequence ≤ sequenceIn info b) a q) := by
  have hnot := h.notMem hinfo
  have hold : ∀ b ∈ q, update info a (some ⟨signerKey, sequence⟩) b = info b := fun b hb =>
    update_of_ne (ne_of_mem_of_not_mem hb hnot) _ _
  have hperm := Search.insertBefore_perm (fun b => sequence ≤ sequenceIn info b) a q
  refine ⟨?_, hperm.nodup_iff.2 (List.nodup_cons.2 ⟨hnot, h.nodup⟩), fun b => ?_⟩
  · -- The new entry counts with its sequence number, the others with theirs.
    have hself : sequenceIn (update info a (some ⟨signerKey, sequence⟩)) a = sequence := by
      rw [sequenceIn, update_self]
      rfl
    have hseq : ∀ b ∈ q, sequenceIn (update info a (some ⟨signerKey, sequence⟩)) b =
        sequenceIn info b := fun b hb => by rw [sequenceIn, hold b hb, sequenceIn]
    refine Search.insertBefore_pairwise (h.sorted.imp_of_mem fun hb hc hle => ?_)
      (fun b hb c hc hbc hle => ?_) (fun b hb hlt => ?_) fun b hb hle => ?_
    · rwa [hseq _ hb, hseq _ hc]
    · rw [hseq b hb, hseq c hc] at hbc
      exact decide_eq_true ((of_decide_eq_true hle).trans hbc)
    · rw [hseq b hb, hself]
      exact (not_le.1 (of_decide_eq_false hlt)).le
    · rw [hseq b hb, hself]
      exact of_decide_eq_true hle
  · rw [hperm.mem_iff, mem_cons]
    by_cases hba : b = a
    · subst hba
      simp [ha]
    · rw [update_of_ne hba, h.exact]
      exact or_iff_right hba

end Lists

namespace SeenTracker

abbrev tracked (s : SeenTracker) : List EntryRef := values s.txByKey

def limits (s : SeenTracker) : ℕ × ℕ := (s.perPeerLimit, s.perSignerLimit)

/-- The accounts are in order, but that an entry may list no peer. -/
structure Booked (s : SeenTracker) : Prop where
  keyed : KeyedBy (SeenEntry.txKey ∘ s.heap) s.txByKey
  fresh : ∀ a ∈ s.tracked, a < s.allocated
  known : ∀ a ∈ s.tracked, 0 ∉ (SeenEntry.peers ∘ s.heap) a
  counts : Counts s.tracked (SeenEntry.peers ∘ s.heap) s.perPeerLimit s.txCount
  lined : ∀ key, Lined s.tracked (SeenEntry.pendingTxInfo ∘ s.heap) key (s.queue key)
  within : ∀ key, (s.queue key).length ≤ s.perSignerLimit

structure Accounted (s : SeenTracker) : Prop extends Booked s where
  listed : ∀ a ∈ s.tracked, ((SeenEntry.peers ∘ s.heap) a).keys ≠ []

variable {s s' : SeenTracker} {a b : EntryRef} {peer : UInt16} {signerKey : Bytes}

theorem comp_assign {β : Type} (field : SeenEntry → β) {heap : EntryRef → SeenEntry} {e : SeenEntry}
    (he : field e = field (heap a) := by rfl) : field ∘ update heap a e = field ∘ heap := by
  rw [comp_update, he]
  exact update_eq_self a _

theorem Booked.nodup (h : s.Booked) : s.tracked.Nodup := h.keyed.nodup_values

theorem Booked.lookup (h : s.Booked) (ha : a ∈ s.tracked) :
    s.txByKey.lookup (s.heap a).txKey = some a :=
  h.keyed.lookup_of_mem ha

/-- What a call does to the entries other than its own. -/
structure Stepped (s : SeenTracker) (a : EntryRef) (s' : SeenTracker) : Prop where
  heap : ∀ b, b ≠ a → s'.heap b = s.heap b
  tracked : ∀ b, b ≠ a → (b ∈ s'.tracked ↔ b ∈ s.tracked)
  limits : s'.limits = s.limits

theorem Stepped.refl (s : SeenTracker) (a : EntryRef) : Stepped s a s :=
  ⟨fun _ _ => rfl, fun _ _ => .rfl, rfl⟩

theorem Stepped.trans {s'' : SeenTracker} (h : Stepped s a s') (h' : Stepped s' a s'') :
    Stepped s a s'' :=
  ⟨fun b hb => (h'.heap b hb).trans (h.heap b hb),
    fun b hb => (h'.tracked b hb).trans (h.tracked b hb), h'.limits.trans h.limits⟩

theorem Stepped.accounted (hstep : Stepped s a s') (h : s.Accounted) (hbooked : s'.Booked)
    (ha : a ∈ s'.tracked → (s'.heap a).peers.keys ≠ []) : s'.Accounted := by
  refine ⟨hbooked, fun b hb => ?_⟩
  by_cases hba : b = a
  · exact hba ▸ ha (hba ▸ hb)
  · rw [Function.comp_apply, hstep.heap b hba]
    exact h.listed b ((hstep.tracked b hba).1 hb)

theorem Accounted.congr (h : s.Accounted) (hbooked : s'.Booked) (htracked : s'.tracked = s.tracked)
    (hpeers : SeenEntry.peers ∘ s'.heap = SeenEntry.peers ∘ s.heap) : s'.Accounted :=
  ⟨hbooked, htracked ▸ hpeers ▸ h.listed⟩

/-- What a call keeps: the accounts are right, and the limits the same. -/
structure Keeps (s s' : SeenTracker) : Prop where
  accounted : s'.Accounted
  limits : s'.limits = s.limits

theorem Keeps.refl (h : s.Accounted) : Keeps s s := ⟨h, rfl⟩

/-! ## The counters -/

theorem txCount_increment (s : SeenTracker) (peer peer' : UInt16) :
    (s.incrementPeerTxCount peer).txCount peer' =
      s.txCount peer' + if peer' = peer then 1 else 0 := by
  rw [txCount, incrementPeerTxCount, lookup_insert_eq]
  split_ifs with heq
  · rw [heq, getD_some]
  · rw [txCount, Int.add_zero]

theorem decrement_eq (s : SeenTracker) (peer : UInt16) :
    ∃ c, s.decrementPeerTxCountLocked peer = { s with txCountByPeer := c } := by
  rw [decrementPeerTxCountLocked]
  split_ifs <;> exact ⟨_, rfl⟩

theorem txCount_decrement (hpeer : peer ≠ 0) (hpos : 1 ≤ s.txCount peer) (peer' : UInt16) :
    (s.decrementPeerTxCountLocked peer).txCount peer' =
      s.txCount peer' - if peer' = peer then 1 else 0 := by
  rw [decrementPeerTxCountLocked, if_neg hpeer]
  by_cases hlast : s.txCount peer - 1 ≤ 0
  · rw [if_pos hlast, txCount, lookup_erase_eq]
    split_ifs with heq
    · rw [getD_none, heq]
      omega
    · rw [txCount, Int.sub_zero]
  · rw [if_neg hlast, txCount, lookup_insert_eq]
    split_ifs with heq
    · rw [getD_some, heq]
    · rw [txCount, Int.sub_zero]

theorem txCount_decrements {peers : List UInt16} (hnodup : peers.Nodup) (hzero : 0 ∉ peers)
    (hpos : ∀ peer ∈ peers, 1 ≤ s.txCount peer) :
    ∃ c, peers.foldl decrementPeerTxCountLocked s = { s with txCountByPeer := c } ∧
      ∀ peer, (c.lookup peer).getD 0 = s.txCount peer - if peer ∈ peers then 1 else 0 := by
  induction peers generalizing s with
  | nil => exact ⟨s.txCountByPeer, rfl, fun peer => (Int.sub_zero _).symm⟩
  | cons p peers ih =>
    obtain ⟨hnot, hnodup⟩ := List.nodup_cons.1 hnodup
    rw [mem_cons, not_or] at hzero
    have hdec := txCount_decrement (Ne.symm hzero.1) (hpos p mem_cons_self)
    obtain ⟨c, hc, hcounts⟩ := ih (s := s.decrementPeerTxCountLocked p) hnodup hzero.2
      fun q hq => by
        rw [hdec, if_neg (ne_of_mem_of_not_mem hq hnot), Int.sub_zero]
        exact hpos q (List.mem_cons_of_mem _ hq)
    obtain ⟨c', hc'⟩ := decrement_eq s p
    refine ⟨c, by rw [List.foldl_cons, hc, hc'], fun q => ?_⟩
    rw [hcounts, hdec]
    grind

theorem Booked.one_le (h : s.Booked) (ha : a ∈ s.tracked) (hpeer : peer ∈ (s.heap a).peers) :
    1 ≤ s.txCount peer := by
  rw [h.counts.eq]
  exact_mod_cast List.countP_pos_iff.2 ⟨a, ha, decide_eq_true hpeer⟩

theorem Booked.changePeers (h : s.Booked) (ha : a ∈ s.tracked) {peers : Table UInt16 Unit}
    {c : Table UInt16 Int} (hzero : 0 ∉ peers)
    (hcount : ∀ p, ((c.lookup p).getD 0 + if p ∈ (s.heap a).peers then 1 else 0) =
      s.txCount p + if p ∈ peers then 1 else 0)
    (hroom : ∀ p ∈ peers, p ∈ (s.heap a).peers ∨ s.txCount p < s.perPeerLimit) :
    Booked { s with
      heap := update s.heap a { s.heap a with peers := peers }
      txCountByPeer := c } where
  keyed := by
    rw [comp_assign SeenEntry.txKey]
    exact h.keyed
  fresh := h.fresh
  known := fun b hb => by
    by_cases hba : b = a
    · simpa [hba] using hzero
    · simpa [hba] using h.known b hb
  counts := by
    refine h.counts.change (a := a) h.nodup h.nodup (fun b hb => ⟨.rfl, ?_⟩) (fun p => ?_)
      fun p _ hp => ?_
    · simp [hb]
    · simpa [txCount, ha] using hcount p
    · exact (hroom p (by simpa using hp)).imp_left fun hmem => ⟨ha, hmem⟩
  lined := by
    rw [comp_assign SeenEntry.pendingTxInfo]
    exact h.lined
  within := h.within

theorem Booked.addPeer (h : s.Booked) (ha : a ∈ s.tracked) (hpeer : peer ≠ 0)
    (hnot : peer ∉ (s.heap a).peers) (hlimit : s.txCount peer < s.perPeerLimit) :
    ((s.assign a { s.heap a with peers := (s.heap a).peers.insert peer () }).incrementPeerTxCount
      peer).Booked := by
  refine h.changePeers ha ?_ (fun p => ?_) fun p hp => ?_
  · rw [mem_insert, not_or]
    exact ⟨Ne.symm hpeer, h.known a ha⟩
  · apply (congrArg (· + _) (txCount_increment _ peer p)).trans
    change s.txCount p + _ + _ = _
    grind [mem_insert]
  · rcases (mem_insert _).1 hp with rfl | hp
    · exact .inr hlimit
    · exact .inl hp

theorem Booked.erasePeer (h : s.Booked) (ha : a ∈ s.tracked) (hmem : peer ∈ (s.heap a).peers)
    {c : Table UInt16 Int} (hc : decrementPeerTxCountLocked
        (s.assign a { s.heap a with peers := (s.heap a).peers.erase peer }) peer =
      { s.assign a { s.heap a with peers := (s.heap a).peers.erase peer } with
        txCountByPeer := c }) :
    Booked { s.assign a { s.heap a with peers := (s.heap a).peers.erase peer } with
      txCountByPeer := c } := by
  have hpeer : peer ≠ 0 := fun h0 => h.known a ha (h0 ▸ hmem)
  refine h.changePeers ha (fun h0 => h.known a ha (mem_erase.1 h0).2) (fun p => ?_)
    fun p hp => .inl (mem_erase.1 hp).2
  have hcount : _ = s.txCount p - _ := txCount_decrement
    (s := s.assign a { s.heap a with peers := (s.heap a).peers.erase peer }) hpeer
    (h.one_le ha hmem) p
  rw [hc, txCount] at hcount
  grind [mem_erase]

/-- The tracker with an entry for a transaction that is new to it. -/
def entered (s : SeenTracker) (txKey : TxKey) (peer : UInt16) (now : Time) : SeenTracker :=
  incrementPeerTxCount
    { s.assign s.allocated ⟨txKey, singleton peer (), now, none⟩ with
      allocated := s.allocated + 1
      txByKey := s.txByKey.insert txKey s.allocated } peer

theorem Booked.allocated_notMem (h : s.Booked) : s.allocated ∉ s.tracked :=
  fun ha => absurd (h.fresh _ ha) (lt_irrefl _)

theorem Booked.addEntry (h : s.Booked) {txKey : TxKey} (hnew : txKey ∉ s.txByKey)
    (hpeer : peer ≠ 0) (hlimit : s.txCount peer < s.perPeerLimit) (now : Time) :
    (s.entered txKey peer now).Booked ∧ Stepped s s.allocated (s.entered txKey peer now) := by
  have hfresh := h.allocated_notMem
  have htracked : (s.entered txKey peer now).tracked = s.allocated :: s.tracked :=
    values_insert hnew _
  have hself : (s.entered txKey peer now).heap s.allocated =
      ⟨txKey, singleton peer (), now, none⟩ :=
    update_self ..
  have hheap (b : EntryRef) (hb : b ≠ s.allocated) :
      (s.entered txKey peer now).heap b = s.heap b := update_of_ne hb _ _
  have hold (b : EntryRef) (hb : b ∈ s.tracked) := hheap b (ne_of_mem_of_not_mem hb hfresh)
  have hmem (b : EntryRef) (hb : b ≠ s.allocated) :
      b ∈ (s.entered txKey peer now).tracked ↔ b ∈ s.tracked := by
    rw [htracked, mem_cons]
    exact or_iff_right hb
  have hkeyed : KeyedBy (SeenEntry.txKey ∘ (s.entered txKey peer now).heap)
      (s.txByKey.insert txKey s.allocated) := by
    intro k v hk
    rw [lookup_insert_eq] at hk
    split_ifs at hk with hkk
    · cases hk
      rw [Function.comp_apply, hself, hkk]
    · rw [Function.comp_apply, hold v (mem_values.2 ⟨k, hk⟩)]
      exact h.keyed k v hk
  refine ⟨⟨hkeyed, ?_, ?_, ?_, fun key => ?_, h.within⟩, hheap, hmem, rfl⟩
  · rw [htracked, List.forall_mem_cons]
    exact ⟨Nat.lt_succ_self _, fun a ha => Nat.lt_succ_of_lt (h.fresh a ha)⟩
  · rw [htracked, List.forall_mem_cons, Function.comp_apply, hself]
    refine ⟨fun h0 => hpeer (mem_singleton.1 h0).symm, fun a ha => ?_⟩
    rw [Function.comp_apply, hold a ha]
    exact h.known a ha
  · refine h.counts.change (a := s.allocated) h.nodup hkeyed.nodup_values
      (fun b hb => ⟨hmem b hb, congrArg _ (hheap b hb)⟩) (fun p => ?_) fun p _ hp => ?_
    · have hcount : (s.entered txKey peer now).txCount p = s.txCount p + _ :=
        txCount_increment _ _ _
      simp [hcount, hfresh, htracked, hself, mem_singleton]
    · rw [Function.comp_apply, hself, mem_singleton] at hp
      exact .inr (hp ▸ hlimit)
  · refine (h.lined key).sublist (List.Sublist.refl _) (fun b hb => ?_) fun b hb hl sequence => ?_
    · have hb' := (((h.lined key).exact b).1 hb).1
      exact ⟨(hmem b (ne_of_mem_of_not_mem hb' hfresh)).2 hb', congrArg _ (hold b hb')⟩
    · by_cases hba : b = s.allocated
      · rw [hba, Function.comp_apply, hself]
        simp
      · rw [Function.comp_apply, hheap b hba]
        exact fun hinfo => hb (((h.lined key).exact b).2 ⟨(hmem b hba).1 hl, sequence, hinfo⟩)

/-! ## The queues -/

theorem queue_removeFromPendingQueue (s : SeenTracker) (a : EntryRef) (key signerKey : Bytes) :
    (s.removeFromPendingQueueLocked a key).queue signerKey =
      if signerKey = key then (s.queue key).erase a else s.queue signerKey := by
  rw [removeFromPendingQueueLocked]
  by_cases hempty : (s.queue key).erase a = []
  · rw [if_pos hempty, queue, lookup_erase_eq]
    split_ifs
    · exact hempty.symm
    · rfl
  · rw [if_neg hempty, queue, lookup_insert_eq]
    split_ifs <;> rfl

theorem Booked.unqueue (h : s.Booked) (a : EntryRef) :
    ∃ q, s.unqueue a = { s with pendingTxsBySigner := q } ∧
      ∀ key, (q.lookup key).getD [] = (s.queue key).erase a := by
  rw [SeenTracker.unqueue]
  cases hinfo : (s.heap a).pendingTxInfo with
  | none => exact ⟨_, rfl, fun key => (List.erase_of_not_mem ((h.lined key).notMem hinfo)).symm⟩
  | some info =>
    have hqueue := queue_removeFromPendingQueue s a info.signerKey
    obtain ⟨q, hq⟩ : ∃ q, s.removeFromPendingQueueLocked a info.signerKey =
        { s with pendingTxsBySigner := q } := by
      rw [removeFromPendingQueueLocked]
      split_ifs <;> exact ⟨_, rfl⟩
    refine ⟨q, hq, fun key => ?_⟩
    rw [hq] at hqueue
    refine (hqueue key).trans ?_
    split_ifs with hkey
    · rw [hkey]
    · refine (List.erase_of_not_mem fun hmem => hkey ?_).symm
      obtain ⟨-, sequence, hseq⟩ := ((h.lined key).exact a).1 hmem
      cases hinfo.symm.trans hseq
      rfl

theorem Booked.removeEntry (h : s.Booked) (ha : a ∈ s.tracked) :
    (s.removeEntryLocked a).Booked ∧ Stepped s a (s.removeEntryLocked a) ∧
      a ∉ (s.removeEntryLocked a).tracked ∧ (s.removeEntryLocked a).heap = s.heap := by
  obtain ⟨q, hq, hqueue⟩ := h.unqueue a
  obtain ⟨c, hc, hcounts⟩ := txCount_decrements
    (s := { s with pendingTxsBySigner := q }) (s.heap a).peers.keys_nodup
    (fun h0 => h.known a ha (mem_keys.2 h0)) fun p hp => h.one_le ha (mem_keys.2 hp)
  have hkeyed := h.keyed.erase (s.heap a).txKey
  have hperm : s.tracked.Perm (a :: values (s.txByKey.erase (s.heap a).txKey)) :=
    values_erase (h.lookup ha)
  have hnot : a ∉ values (s.txByKey.erase (s.heap a).txKey) :=
    (List.nodup_cons.1 (hperm.nodup_iff.1 h.nodup)).1
  have hsub (b : EntryRef) (hb : b ∈ values (s.txByKey.erase (s.heap a).txKey)) :
      b ∈ s.tracked := hperm.mem_iff.2 (List.mem_cons_of_mem _ hb)
  have hmem (b : EntryRef) (hb : b ≠ a) :
      b ∈ values (s.txByKey.erase (s.heap a).txKey) ↔ b ∈ s.tracked := by
    rw [hperm.mem_iff, mem_cons]
    exact (or_iff_right hb).symm
  rw [removeEntryLocked, hq, hc]
  refine ⟨⟨hkeyed, fun b hb => h.fresh b (hsub b hb), fun b hb => h.known b (hsub b hb), ?_,
    fun key => ?_, fun key => ?_⟩, ⟨fun _ _ => rfl, hmem, rfl⟩, hnot, rfl⟩
  · refine h.counts.change (a := a) h.nodup hkeyed.nodup_values (fun b hb => ⟨hmem b hb, rfl⟩)
      (fun p => ?_) fun p ha' _ => absurd ha' hnot
    simp [txCount, hcounts, ha, hnot, mem_keys]
  · simp only [queue, hqueue]
    exact (h.lined key).erase (fun b hb => ⟨hmem b hb, rfl⟩) fun ha' => absurd ha' hnot
  · simp only [queue, hqueue]
    exact List.erase_sublist.length_le.trans (h.within key)

theorem Booked.changeInfo (h : s.Booked) {heap : EntryRef → SeenEntry}
    {q : Table Bytes (List EntryRef)} (hkeys : SeenEntry.txKey ∘ heap = SeenEntry.txKey ∘ s.heap)
    (hpeers : SeenEntry.peers ∘ heap = SeenEntry.peers ∘ s.heap)
    (hlined : ∀ key, Lined s.tracked (SeenEntry.pendingTxInfo ∘ heap) key ((q.lookup key).getD []))
    (hwithin : ∀ key, ((q.lookup key).getD []).length ≤ s.perSignerLimit) :
    Booked { s with heap := heap, pendingTxsBySigner := q } :=
  ⟨hkeys ▸ h.keyed, h.fresh, hpeers ▸ h.known, hpeers ▸ h.counts, hlined, hwithin⟩

theorem Accounted.clear (h : s.Accounted) (a : EntryRef) :
    ((s.unqueue a).clearPendingTxMetadata a).Accounted ∧
      Stepped s a ((s.unqueue a).clearPendingTxMetadata a) := by
  obtain ⟨q, hq, hqueue⟩ := h.unqueue a
  rw [hq, clearPendingTxMetadata]
  refine ⟨h.congr (h.changeInfo (comp_assign _) (comp_assign _) (fun key => ?_) fun key => ?_) rfl
    (comp_assign _), fun b hb => update_of_ne hb _ _, fun b _ => .rfl, rfl⟩
  · rw [hqueue, comp_update]
    exact (h.lined key).erase (fun b hb => ⟨.rfl, update_of_ne hb _ _⟩) fun _ => update_self ..
  · rw [hqueue]
    exact List.erase_sublist.length_le.trans (h.within key)

theorem clears_eq (l : List EntryRef) (s : SeenTracker) :
    ∃ heap, l.foldl clearPendingTxMetadata s = { s with heap := heap } ∧
      SeenEntry.txKey ∘ heap = SeenEntry.txKey ∘ s.heap ∧
      SeenEntry.peers ∘ heap = SeenEntry.peers ∘ s.heap ∧
      ∀ b, (heap b).pendingTxInfo = if b ∈ l then none else (s.heap b).pendingTxInfo := by
  induction l generalizing s with
  | nil => exact ⟨s.heap, rfl, rfl, rfl, fun b => rfl⟩
  | cons a l ih =>
    obtain ⟨heap, hfold, hkeys, hpeers, hinfo⟩ := ih (s.clearPendingTxMetadata a)
    refine ⟨heap, hfold, hkeys.trans (comp_assign _), hpeers.trans (comp_assign _), fun b => ?_⟩
    rw [hinfo, clearPendingTxMetadata, assign]
    by_cases hba : b = a <;> simp [hba]

/-- A queue takes up an entry and is cut at the limit: what is cut off has its pending info
cleared. -/
theorem Accounted.index (h : s.Accounted) (ha : a ∈ s.tracked)
    (hnone : (s.heap a).pendingTxInfo = none) (signerKey : Bytes) (sequence : ℕ) :
    Keeps s (s.indexPendingTxLocked a signerKey sequence) := by
  rw [indexPendingTxLocked]
  split_ifs with hfull
  · exact .refl h
  have hlined := (h.lined signerKey).insert ha hnone sequence
  change Lined _ _ _ (Search.insertAt (s.queue signerKey) (Search.searchList (s.queue signerKey)
    fun b => sequence ≤ s.sequenceOf b) a) at hlined
  generalize Search.insertAt (s.queue signerKey) (Search.searchList (s.queue signerKey)
    fun b => sequence ≤ s.sequenceOf b) a = q at hlined ⊢
  obtain ⟨heap, hfold, hkeys, hpeers, hinfo⟩ := clears_eq (q.drop s.perSignerLimit)
    (s.assign a { s.heap a with pendingTxInfo := some ⟨signerKey, sequence⟩ })
  have hpeers' := hpeers.trans (comp_assign SeenEntry.peers)
  have hinfo' : SeenEntry.pendingTxInfo ∘ heap = fun b => if b ∈ q.drop s.perSignerLimit then none
      else update (SeenEntry.pendingTxInfo ∘ s.heap) a (some ⟨signerKey, sequence⟩) b := by
    funext b
    rw [Function.comp_apply, hinfo]
    exact congrArg _ (congrFun (comp_update SeenEntry.pendingTxInfo _ _ _) b)
  dsimp only [assign] at hfold ⊢
  rw [hfold]
  refine ⟨h.congr (h.changeInfo (hkeys.trans (comp_assign _)) hpeers' (fun key => ?_)
    fun key => ?_) rfl hpeers', rfl⟩
  · have hcut : ∀ b ∈ q.take s.perSignerLimit, b ∉ q.drop s.perSignerLimit := fun b hb =>
      List.disjoint_take_drop hlined.nodup le_rfl hb
    have hsplit (b : EntryRef) :
        b ∈ q ↔ b ∈ q.take s.perSignerLimit ∨ b ∈ q.drop s.perSignerLimit := by
      rw [← List.mem_append, List.take_append_drop]
    rw [lookup_insert_eq, hinfo']
    split_ifs with hkey
    · subst hkey
      refine hlined.sublist (List.take_sublist _ _) (fun b hb => ?_) fun b hb hl seq => ?_
      · exact ⟨((hlined.exact b).1 ((hsplit b).2 (.inl hb))).1, if_neg (hcut b hb)⟩
      · grind [hlined.exact b]
    · show Lined _ _ _ (s.queue key)
      refine (h.lined key).sublist (List.Sublist.refl _) (fun b hb => ?_) fun b hb hl seq => ?_
      · grind [(h.lined key).exact b, hlined.exact b]
      · grind [(h.lined key).exact b]
  · rw [lookup_insert_eq]
    split_ifs
    · exact List.length_take_le _ _
    · exact h.within key

/-! ## Every call -/

theorem Accounted.removeEntry (h : s.Accounted) (ha : a ∈ s.tracked) :
    (s.removeEntryLocked a).Accounted ∧ Stepped s a (s.removeEntryLocked a) := by
  obtain ⟨hbooked, hstep, hnot, -⟩ := h.toBooked.removeEntry ha
  exact ⟨hstep.accounted h hbooked fun ha' => absurd ha' hnot, hstep⟩

theorem Accounted.forgetPeer (h : s.Accounted) (ha : a ∈ s.tracked) (peer : UInt16) :
    (SeenTracker.forgetPeer peer s a).Accounted ∧ Stepped s a (SeenTracker.forgetPeer peer s a) ∧
      peer ∉ ((SeenTracker.forgetPeer peer s a).heap a).peers := by
  rw [SeenTracker.forgetPeer]
  by_cases hmem : peer ∈ (s.heap a).peers
  · obtain ⟨c, hc⟩ := decrement_eq
      (s.assign a { s.heap a with peers := (s.heap a).peers.erase peer }) peer
    have hbooked := h.erasePeer ha hmem hc
    have hstep : Stepped s a
        { s.assign a { s.heap a with peers := (s.heap a).peers.erase peer } with
          txCountByPeer := c } :=
      ⟨fun b hb => update_of_ne hb _ _, fun b _ => .rfl, rfl⟩
    have hgone : peer ∉ ((s.assign a { s.heap a with peers := (s.heap a).peers.erase peer }).heap
        a).peers := by
      simp [assign, mem_erase]
    rw [if_pos hmem, hc]
    dsimp only
    split_ifs with hlast
    · obtain ⟨hbooked', hstep', hnot, hheap⟩ := hbooked.removeEntry ha
      have hstep'' := hstep.trans hstep'
      exact ⟨hstep''.accounted h hbooked' fun ha' => absurd ha' hnot, hstep'',
        (congrArg (peer ∉ SeenEntry.peers ·) (congrFun hheap a)).mpr hgone⟩
    · exact ⟨hstep.accounted h hbooked fun _ => hlast, hstep, hgone⟩
  · have hlisted : (s.heap a).peers.keys ≠ [] := h.listed a ha
    rw [if_neg hmem, if_neg hlisted]
    exact ⟨h, .refl s a, hmem⟩

theorem Accounted.loop {f : SeenTracker → EntryRef → SeenTracker} {P : SeenEntry → Prop}
    (hf : ∀ s a, s.Accounted → a ∈ s.tracked →
      (f s a).Accounted ∧ Stepped s a (f s a) ∧ P ((f s a).heap a))
    {l : List EntryRef} (h : s.Accounted) (hnodup : l.Nodup) (hl : ∀ a ∈ l, a ∈ s.tracked) :
    Keeps s (l.foldl f s) ∧ (∀ a ∉ l, (l.foldl f s).heap a = s.heap a) ∧
      (∀ a ∉ l, a ∈ (l.foldl f s).tracked → a ∈ s.tracked) ∧ ∀ a ∈ l, P ((l.foldl f s).heap a) := by
  induction l generalizing s with
  | nil => exact ⟨.refl h, fun _ _ => rfl, fun _ _ ha => ha, nofun⟩
  | cons b l ih =>
    obtain ⟨hnot, hnodup⟩ := List.nodup_cons.1 hnodup
    obtain ⟨haccounted, hstep, hP⟩ := hf s b h (hl b mem_cons_self)
    obtain ⟨hkeeps, hheap, htracked, hall⟩ := ih haccounted hnodup fun a ha =>
      (hstep.tracked a (ne_of_mem_of_not_mem ha hnot)).2 (hl a (List.mem_cons_of_mem _ ha))
    rw [List.foldl_cons]
    refine ⟨⟨hkeeps.accounted, hkeeps.limits.trans hstep.limits⟩, fun a ha => ?_,
      fun a ha hmem => ?_, List.forall_mem_cons.2 ⟨hheap b hnot ▸ hP, hall⟩⟩
    · rw [mem_cons, not_or] at ha
      rw [hheap a ha.2, hstep.heap a ha.1]
    · rw [mem_cons, not_or] at ha
      exact (hstep.tracked a ha.1).1 (htracked a ha.2 hmem)

theorem Accounted.addPeerToEntry (h : s.Accounted) (ha : a ∈ s.tracked) (hpeer : peer ≠ 0) :
    Keeps s (s.addPeerToEntryLocked a peer).2 ∧
      (s.addPeerToEntryLocked a peer).2.tracked = s.tracked := by
  rw [addPeerToEntryLocked]
  split_ifs with hmem hfull
  · exact ⟨.refl h, rfl⟩
  · exact ⟨.refl h, rfl⟩
  have hstep : Stepped s a ((s.assign a { s.heap a with
      peers := (s.heap a).peers.insert peer () }).incrementPeerTxCount peer) :=
    ⟨fun b hb => update_of_ne hb _ _, fun b _ => .rfl, rfl⟩
  refine ⟨⟨hstep.accounted h (h.addPeer ha hpeer hmem (not_le.1 hfull)) fun _ => ?_, rfl⟩, rfl⟩
  simp [incrementPeerTxCount, assign, keys_insert]

theorem Accounted.addPeerLocked (h : s.Accounted) (now : Time) (txKey : TxKey) (peer : UInt16) :
    Keeps s (s.addPeerLocked now txKey peer).2 ∧
      ∀ a ∈ (s.addPeerLocked now txKey peer).1, a ∈ (s.addPeerLocked now txKey peer).2.tracked := by
  rw [SeenTracker.addPeerLocked]
  by_cases hpeer : peer = 0
  · rw [if_pos hpeer]
    exact ⟨.refl h, nofun⟩
  rw [if_neg hpeer]
  cases hlookup : s.txByKey.lookup txKey with
  | some a =>
    have ha : a ∈ s.tracked := mem_values.2 ⟨_, hlookup⟩
    obtain ⟨hkeeps, htracked⟩ := h.addPeerToEntry ha hpeer
    refine ⟨hkeeps, fun b hb => ?_⟩
    dsimp only at hb ⊢
    rw [htracked]
    split_ifs at hb
    · exact mem_some_iff.1 hb ▸ ha
    · cases hb
  | none =>
    dsimp only
    split_ifs with hfull
    · exact ⟨.refl h, nofun⟩
    · obtain ⟨hbooked, hstep⟩ :=
        h.addEntry (lookup_eq_none.1 hlookup) hpeer (not_le.1 hfull) now
      refine ⟨⟨hstep.accounted h hbooked fun _ => ?_, rfl⟩, fun a ha => ?_⟩
      · simp [entered, incrementPeerTxCount, assign]
      · exact mem_values.2 ⟨txKey, mem_some_iff.1 ha ▸ lookup_insert _⟩

theorem Accounted.addPendingTx (h : s.Accounted) (now : Time) (txKey : TxKey) (peer : UInt16)
    (signer : Bytes) (sequence : ℕ) :
    Keeps s (s.addPendingTx now txKey peer signer sequence).2 := by
  obtain ⟨hkeeps, hmem⟩ := h.addPeerLocked now txKey peer
  rw [SeenTracker.addPendingTx]
  split_ifs with hsigner
  · exact .refl h
  dsimp only
  cases hadded : (s.addPeerLocked now txKey peer).1 with
  | none => exact hkeeps
  | some a =>
    dsimp only
    split_ifs with hinfo
    · have hindex := hkeeps.accounted.index (hmem a hadded) hinfo signer sequence
      exact ⟨hindex.accounted, hindex.limits.trans hkeeps.limits⟩
    · exact hkeeps

theorem accounted_reset (s : SeenTracker) : s.reset.Accounted where
  keyed k v hk := absurd hk (by simp [reset])
  fresh := nofun
  known := nofun
  counts := ⟨fun _ => rfl, fun _ => Int.natCast_nonneg _⟩
  lined _ := ⟨.nil, List.nodup_nil, fun _ => iff_of_false not_mem_nil fun ha => not_mem_nil ha.1⟩
  within _ := Nat.zero_le _
  listed := nofun

theorem Accounted.removePeer (h : s.Accounted) (peer : UInt16) : Keeps s (s.removePeer peer) := by
  rw [SeenTracker.removePeer]
  split_ifs with hpeer
  · exact .refl h
  obtain ⟨⟨haccounted, hlimits⟩, -, htracked, hgone⟩ :=
    Accounted.loop (P := fun e => peer ∉ e.peers)
      (fun s a hs ha => hs.forgetPeer ha peer) h h.nodup fun a ha => ha
  dsimp only
  generalize s.tracked.foldl (SeenTracker.forgetPeer peer) s =
    s' at haccounted hlimits htracked hgone ⊢
  -- No entry lists the peer any more, so its count is zero when the counter goes.
  have hnone : s'.txCount peer = 0 := by
    rw [haccounted.counts.eq, List.countP_eq_zero.2 fun a ha => ?_]
    · rfl
    · by_cases hmem : a ∈ s.tracked
      · simpa using hgone a hmem
      · exact absurd (htracked a hmem ha) hmem
  have htxCount : s'.txCount = fun p => ((s'.txCountByPeer.erase peer).lookup p).getD 0 := by
    funext p
    rw [lookup_erase_eq]
    split_ifs with hp
    · rw [hp, hnone]
      rfl
    · rfl
  have hcounts := haccounted.counts
  rw [htxCount] at hcounts
  exact ⟨{ haccounted with counts := hcounts }, hlimits⟩

theorem Accounted.step (h : s.Accounted) (call : TrackerCall) : Keeps s (s.step call) := by
  have hentry {s' : SeenTracker} {a : EntryRef} (hkept : s'.Accounted ∧ Stepped s a s') :
      Keeps s s' :=
    ⟨hkept.1, hkept.2.limits⟩
  cases call with
  | addPeer now txKey peer => exact (h.addPeerLocked now txKey peer).1
  | addPendingTx now txKey peer signer sequence =>
    exact h.addPendingTx now txKey peer signer sequence
  | clearPendingTx txKey =>
    rw [SeenTracker.step, clearPendingTx]
    cases s.txByKey.lookup txKey with
    | none => exact .refl h
    | some a =>
      dsimp only
      split_ifs
      · exact .refl h
      · exact hentry (h.clear a)
  | removePeerFromTx txKey peer =>
    rw [SeenTracker.step, removePeerFromTx]
    split_ifs
    · exact .refl h
    · cases hlookup : s.txByKey.lookup txKey with
      | none => exact .refl h
      | some a =>
        obtain ⟨haccounted, hstep, -⟩ := h.forgetPeer (mem_values.2 ⟨_, hlookup⟩) peer
        exact ⟨haccounted, hstep.limits⟩
  | removePeer peer => exact h.removePeer peer
  | removeKey txKey =>
    rw [SeenTracker.step, removeKey]
    cases hlookup : s.txByKey.lookup txKey with
    | none => exact .refl h
    | some a => exact hentry (h.removeEntry (mem_values.2 ⟨_, hlookup⟩))
  | pruneExpired =>
    refine (Accounted.loop (P := fun _ => True) (fun s a hs ha => ?_) h h.nodup fun a ha => ha).1
    split_ifs
    · exact and_assoc.1 ⟨hs.removeEntry ha, trivial⟩
    · exact ⟨hs, .refl s a, trivial⟩
  | prunePending =>
    refine (Accounted.loop (P := fun _ => True) (fun s a hs ha => ?_) h h.nodup fun a ha => ha).1
    split_ifs
    · exact ⟨hs, .refl s a, trivial⟩
    · exact and_assoc.1 ⟨hs.clear a, trivial⟩
  | reset => exact ⟨accounted_reset s, rfl⟩

/-! ## Whole runs -/

/-- The accounts of a tracker with the given limits, as its callers read them. -/
structure Consistent (perPeerLimit perSignerLimit : ℕ) (s : SeenTracker) : Prop where
  /-- The count of a peer is the number of entries that list it, and within the limit. -/
  counts : ∀ peer, s.txCount peer = (values s.txByKey).countP fun a => peer ∈ (s.heap a).peers
  peer_limit : ∀ peer, s.txCount peer ≤ perPeerLimit
  /-- A queue is sorted by sequence number, within the limit, and has no entry twice. -/
  sorted : ∀ signerKey, (s.queue signerKey).Pairwise fun a b => s.sequenceOf a ≤ s.sequenceOf b
  signer_limit : ∀ signerKey, (s.queue signerKey).length ≤ perSignerLimit
  once : ∀ signerKey, (s.queue signerKey).Nodup
  /-- A queue holds the tracked entries whose pending info names the signer. -/
  queued : ∀ signerKey a, a ∈ s.queue signerKey ↔ s.txByKey.lookup (s.heap a).txKey = some a ∧
    ∃ sequence, (s.heap a).pendingTxInfo = some ⟨signerKey, sequence⟩
  /-- A tracked entry is under its key and lists a peer. -/
  keyed : ∀ txKey a, s.txByKey.lookup txKey = some a → (s.heap a).txKey = txKey
  listed : ∀ txKey a, s.txByKey.lookup txKey = some a → (s.heap a).peers.keys ≠ []

theorem Accounted.consistent (h : s.Accounted) {perPeerLimit perSignerLimit : ℕ}
    (hlimits : s.limits = (perPeerLimit, perSignerLimit)) :
    s.Consistent perPeerLimit perSignerLimit := by
  obtain ⟨rfl, rfl⟩ := Prod.mk.inj hlimits
  refine ⟨h.counts.eq, h.counts.le, fun key => (h.lined key).sorted, h.within,
    fun key => (h.lined key).nodup, fun key a => ?_, h.keyed,
    fun txKey a ha => h.listed a (mem_values.2 ⟨_, ha⟩)⟩
  rw [(h.lined key).exact]
  exact and_congr_left fun _ => ⟨h.lookup, fun hlookup => mem_values.2 ⟨_, hlookup⟩⟩

/-- After every sequence of calls on a new tracker its counts, its queues and its index agree. -/
theorem consistent_trackerAfter (perPeerLimit perSignerLimit : ℕ) (calls : List TrackerCall) :
    (trackerAfter perPeerLimit perSignerLimit calls).Consistent perPeerLimit perSignerLimit := by
  have hnew : (newSeenTracker perPeerLimit perSignerLimit).Accounted :=
    accounted_reset (newSeenTracker perPeerLimit perSignerLimit)
  have hlimits : (newSeenTracker perPeerLimit perSignerLimit).limits =
      (perPeerLimit, perSignerLimit) := rfl
  unfold trackerAfter
  generalize newSeenTracker perPeerLimit perSignerLimit = s at hnew hlimits
  induction calls generalizing s with
  | nil => exact hnew.consistent hlimits
  | cons call calls ih =>
    have hkeeps := hnew.step call
    exact ih _ hkeeps.accounted (hkeeps.limits.trans hlimits)

end SeenTracker
end CelestiaCore.Mempool
