import CelestiaCore.Keyed.Table
import Mathlib

/-!
# Short IDs for mempool peers

`mempool/cat/peers.go`: 16-bit IDs from a counter that wraps around and skips the IDs in use. It
does not skip 0, the ID of an unknown peer. -/
namespace CelestiaCore.Mempool
open Keyed AList Table List Except
open UInt16 (ofNat toNat_add toNat_inj toNat_ofNat' toNat_zero)

def unknownPeerID : UInt16 := 0

def firstPeerID : UInt16 := unknownPeerID + 1

/-- `mempool.MaxActiveIDs`, the maximal value of 16 bits. -/
def maxActiveIDs : ℕ := 65535

/-- How a call can end other than by returning. -/
inductive Stuck where
  | panics (msg : String)
  | loops
  deriving DecidableEq, Repr

variable {ID Peer : Type} [DecidableEq ID] (id : Peer → ID)

structure MempoolIDs (ID Peer : Type) where
  peerMap : Table ID UInt16
  nextID : UInt16
  activeIDs : Table UInt16 Peer

def newMempoolIDs : MempoolIDs ID Peer := ⟨∅, firstPeerID, ∅⟩

/-- The loop of `nextPeerID`; after as many steps as there are IDs it has seen every one. -/
def firstFree (activeIDs : Table UInt16 Peer) : ℕ → UInt16 → Except Stuck UInt16
  | 0, _ => .error .loops
  | n + 1, nextID => if nextID ∈ activeIDs then firstFree activeIDs n (nextID + 1) else .ok nextID

namespace MempoolIDs

def nextPeerID (ids : MempoolIDs ID Peer) : Except Stuck (UInt16 × MempoolIDs ID Peer) := do
  if ids.activeIDs.entries.length = maxActiveIDs then
    .error (.panics s!"node has maximum {maxActiveIDs} active IDs and wanted to get one more")
  else
    let curID ← firstFree ids.activeIDs 65536 ids.nextID
    .ok (curID, { ids with nextID := curID + 1 })

def reserveForPeer (ids : MempoolIDs ID Peer) (peer : Peer) : Except Stuck (MempoolIDs ID Peer) :=
  match ids.peerMap.lookup (id peer) with
  | some curID => .ok { ids with activeIDs := ids.activeIDs.insert curID peer }
  | none => do
    let next ← ids.nextPeerID
    .ok { next.2 with
      peerMap := next.2.peerMap.insert (id peer) next.1
      activeIDs := next.2.activeIDs.insert next.1 peer }

def reclaim (ids : MempoolIDs ID Peer) (peerID : ID) : UInt16 × MempoolIDs ID Peer :=
  match ids.peerMap.lookup peerID with
  | some removedID =>
    (removedID, { ids with
      activeIDs := ids.activeIDs.erase removedID
      peerMap := ids.peerMap.erase peerID })
  | none => (0, ids)

def getIDForPeer (ids : MempoolIDs ID Peer) (peerID : ID) : UInt16 :=
  (ids.peerMap.lookup peerID).getD 0

/-- A nil peer is `none`. -/
def getPeer (ids : MempoolIDs ID Peer) (k : UInt16) : Option Peer := ids.activeIDs.lookup k

end MempoolIDs

inductive PeerCall (ID Peer : Type) where
  | reserveForPeer (peer : Peer)
  | reclaim (peerID : ID)

def MempoolIDs.step (ids : MempoolIDs ID Peer) : PeerCall ID Peer →
    Except Stuck (MempoolIDs ID Peer)
  | .reserveForPeer peer => ids.reserveForPeer id peer
  | .reclaim peerID => .ok (ids.reclaim peerID).2

def MempoolIDs.after (calls : List (PeerCall ID Peer)) : Except Stuck (MempoolIDs ID Peer) :=
  calls.foldlM (MempoolIDs.step id) newMempoolIDs

/-- The active peers: reserved for and not reclaimed since, each as it was last reserved for. -/
def activePeers (calls : List (PeerCall ID Peer)) : Table ID Peer :=
  calls.foldl (fun t call =>
    match call with
    | .reserveForPeer peer => t.insert (id peer) peer
    | .reclaim peerID => t.erase peerID) ∅

section Search
variable {active : Table UInt16 Peer}

theorem firstFree_eq {n i : ℕ} {a : UInt16} (hin : i < n) (hfree : a + ofNat i ∉ active)
    (hused : ∀ j < i, a + ofNat j ∈ active) :
    firstFree active n a = .ok (a + ofNat i) := by
  induction i generalizing n a with
  | zero =>
    obtain ⟨n, rfl⟩ : ∃ m, n = m + 1 := ⟨n - 1, by omega⟩
    have hzero : a + ofNat 0 = a := UInt16.add_zero a
    rw [hzero] at hfree ⊢
    rw [firstFree, if_neg hfree]
  | succ i ih =>
    obtain ⟨n, rfl⟩ : ∃ m, n = m + 1 := ⟨n - 1, by omega⟩
    have hshift (j : ℕ) : a + 1 + ofNat j = a + ofNat (j + 1) := by
      rw [UInt16.ofNat_add, UInt16.add_assoc, UInt16.add_comm 1]
      rfl
    have hmem : a ∈ active := by
      have h := hused 0 (by omega)
      rwa [show a + ofNat 0 = a from UInt16.add_zero a] at h
    rw [firstFree, if_pos hmem, ih (by omega) (by rwa [hshift]) fun j hj => ?_, hshift]
    rw [hshift]
    exact hused (j + 1) (by omega)

theorem exists_free (hcount : active.entries.length < 65536) (a : UInt16) :
    ∃ i < 65536, a + ofNat i ∉ active := by
  by_contra hall
  push Not at hall
  have hsub : (List.range 65536).map (a + ofNat ·) ⊆ active.keys := by
    intro k hk
    obtain ⟨i, hi, rfl⟩ := mem_map.1 hk
    exact mem_keys.1 (hall i (mem_range.1 hi))
  have hnodup : ((range 65536).map (a + ofNat ·)).Nodup := by
    refine List.Nodup.map_on (fun i hi j hj hij => ?_) nodup_range
    have hnat := congrArg UInt16.toNat ((UInt16.add_right_inj a).1 hij)
    simp only [toNat_ofNat', mem_range] at hnat hi hj
    omega
  have hle := (hnodup.subperm hsub).length_le
  rw [List.length_map, List.length_range, AList.keys, List.keys, List.length_map] at hle
  omega

/-- What the search returns: the free ID that is `i` steps away, where no free ID is nearer. -/
structure Nearest (active : Table UInt16 Peer) (a : UInt16) (i : ℕ) : Prop where
  lt : i < 65536
  free : a + ofNat i ∉ active
  least : ∀ j < 65536, a + ofNat j ∉ active → i ≤ j

theorem exists_nearest (hcount : active.entries.length < 65536) (a : UInt16) :
    ∃ i, Nearest active a i ∧ firstFree active 65536 a = .ok (a + ofNat i) := by
  classical
  have hex := exists_free hcount a
  obtain ⟨hlt, hfree⟩ := Nat.find_spec hex
  have hleast : ∀ j < 65536, a + ofNat j ∉ active → Nat.find hex ≤ j :=
    fun j hj hjfree => Nat.find_min' hex ⟨hj, hjfree⟩
  refine ⟨_, ⟨hlt, hfree, hleast⟩, firstFree_eq hlt hfree fun j hj => ?_⟩
  by_contra hnot
  exact absurd (hleast j (by omega) hnot) (by omega)

theorem toNat_pos_of_ne {k : UInt16} (h : k ≠ unknownPeerID) : 0 < k.toNat := by
  rcases Nat.eq_zero_or_pos k.toNat with h0 | hpos
  · exact absurd (toNat_inj.1 h0) h
  · exact hpos

/-- When an ID from the start up is free, the nearest is reached without a wraparound. -/
theorem Nearest.ne_unknown {a k : UInt16} {i : ℕ} (h : Nearest active a i) (ha : a ≠ unknownPeerID)
    (hle : a ≤ k) (hk : k ∉ active) : a + ofNat i ≠ unknownPeerID := by
  intro hzero
  have hpos := toNat_pos_of_ne ha
  have hlek : a.toNat ≤ k.toNat := hle
  have hklt := k.toNat_lt
  have hback : a + ofNat (k.toNat - a.toNat) = k := by
    apply toNat_inj.1
    simp only [toNat_add, toNat_ofNat']
    omega
  have hmin := h.least (k.toNat - a.toNat) (by omega) (by rwa [hback])
  have hnat := congrArg UInt16.toNat hzero
  simp only [toNat_add, toNat_ofNat', unknownPeerID, toNat_zero] at hnat
  omega

theorem Nearest.eq_unknown {a : UInt16} {i : ℕ} (h : Nearest active a i)
    (hzero : unknownPeerID ∉ active) (hused : a ≠ unknownPeerID → ∀ k, a ≤ k → k ∈ active) :
    a + ofNat i = unknownPeerID := by
  by_cases ha : a = unknownPeerID
  · have hle := h.least 0 (by omega) (by rw [ha]; exact hzero)
    obtain rfl : i = 0 := by omega
    rw [ha]
    rfl
  · have hpos := toNat_pos_of_ne ha
    have hlt := a.toNat_lt
    have hwrap : a + ofNat (65536 - a.toNat) = unknownPeerID := by
      apply toNat_inj.1
      simp only [toNat_add, toNat_ofNat', unknownPeerID, toNat_zero]
      omega
    have hle := h.least (65536 - a.toNat) (by omega) (by rw [hwrap]; exact hzero)
    rcases Nat.eq_or_lt_of_le hle with rfl | hbelow
    · exact hwrap
    · refine absurd (hused ha _ ?_) h.free
      rw [UInt16.le_iff_toNat_le, toNat_add, toNat_ofNat']
      omega

end Search

namespace MempoolIDs

/-- The counter is not at 0, and from it up to the last ID one is free. -/
def Clear (ids : MempoolIDs ID Peer) : Prop :=
  ids.nextID ≠ unknownPeerID ∧ ∃ k, ids.nextID ≤ k ∧ k ∉ ids.activeIDs

/-- The tables agree with each other and with the active peers. -/
structure Tracks (ids : MempoolIDs ID Peer) (peers : Table ID Peer) : Prop where
  named : Table.KeyedBy id peers
  absent : ∀ i, peers.lookup i = none → ids.peerMap.lookup i = none
  assigned : ∀ i p, peers.lookup i = some p →
    ∃ k, ids.peerMap.lookup i = some k ∧ ids.activeIDs.lookup k = some p
  owned : ∀ k p, ids.activeIDs.lookup k = some p → ids.peerMap.lookup (id p) = some k
  count : ids.activeIDs.entries.length = peers.entries.length

variable {id} {ids : MempoolIDs ID Peer} {peers : Table ID Peer} {peer : Peer} {peerID : ID}

omit [DecidableEq ID] in
theorem nextPeerID_spec (hcount : ids.activeIDs.entries.length < maxActiveIDs) :
    ∃ k, k ∉ ids.activeIDs ∧ ids.nextPeerID = .ok (k, { ids with nextID := k + 1 }) ∧
      (unknownPeerID ∉ ids.activeIDs → (k ≠ unknownPeerID ↔ ids.Clear)) := by
  have hlt : ids.activeIDs.entries.length < 65536 := by
    unfold maxActiveIDs at hcount
    omega
  obtain ⟨i, hnear, hfirst⟩ := exists_nearest hlt ids.nextID
  refine ⟨_, hnear.free, ?_, fun hzero => ⟨fun hne => ?_, fun ⟨hnext, k, hle, hk⟩ => ?_⟩⟩
  · rw [nextPeerID, if_neg (by omega), hfirst]
    rfl
  · by_contra hclear
    refine hne (hnear.eq_unknown hzero fun hnext k hle => ?_)
    by_contra hk
    exact hclear ⟨hnext, k, hle, hk⟩
  · exact hnear.ne_unknown hnext hle hk

theorem reserveForPeer_known {k : UInt16} (h : ids.peerMap.lookup (id peer) = some k) :
    ids.reserveForPeer id peer = .ok { ids with activeIDs := ids.activeIDs.insert k peer } := by
  rw [reserveForPeer, h]

theorem reserveForPeer_new (h : ids.peerMap.lookup (id peer) = none)
    (hcount : ids.activeIDs.entries.length < maxActiveIDs) :
    ∃ k, k ∉ ids.activeIDs ∧ ids.reserveForPeer id peer = .ok
        ⟨ids.peerMap.insert (id peer) k, k + 1, ids.activeIDs.insert k peer⟩ ∧
      (unknownPeerID ∉ ids.activeIDs → (k ≠ unknownPeerID ↔ ids.Clear)) := by
  obtain ⟨k, hfree, hnext, hclear⟩ := nextPeerID_spec hcount
  refine ⟨k, hfree, ?_, hclear⟩
  rw [reserveForPeer, h]
  dsimp only
  rw [hnext]
  rfl

theorem Tracks.lookup_of_owned (h : Tracks id ids peers) {k : UInt16} {p : Peer}
    (hk : ids.activeIDs.lookup k = some p) : peers.lookup (id p) = some p := by
  have howned := h.owned k p hk
  cases hp : peers.lookup (id p) with
  | none => rw [h.absent _ hp] at howned; simp at howned
  | some q =>
    obtain ⟨k', hk', hq⟩ := h.assigned _ q hp
    rw [howned, Option.some.injEq] at hk'
    rw [← hk', hk] at hq
    exact hq.symm

/-- A peer takes an ID that is free or its own. -/
theorem Tracks.reserve (h : Tracks id ids peers) {next : MempoolIDs ID Peer} {k : UInt16}
    (hmap : ∀ i, next.peerMap.lookup i = if i = id peer then some k else ids.peerMap.lookup i)
    (hactive : next.activeIDs = ids.activeIDs.insert k peer)
    (hk : ∀ p, ids.activeIDs.lookup k = some p ↔ peers.lookup (id peer) = some p) :
    Tracks id next (peers.insert (id peer) peer) := by
  refine ⟨h.named.insert rfl, fun i hi => ?_, fun i q hq => ?_, fun k' q hq => ?_, ?_⟩
  · rw [lookup_insert_eq] at hi
    split_ifs at hi with hne
    rw [hmap, if_neg hne]
    exact h.absent i hi
  · rw [lookup_insert_eq] at hq
    split_ifs at hq with hi
    · cases hq
      exact ⟨k, by rw [hmap, if_pos hi], by rw [hactive, lookup_insert]⟩
    · obtain ⟨k', hk', hq'⟩ := h.assigned i q hq
      have hne : k' ≠ k := by
        rintro rfl
        exact hi ((h.named i q hq).symm.trans (h.named _ q ((hk q).1 hq')))
      exact ⟨k', by rw [hmap, if_neg hi, hk'], by rw [hactive, lookup_insert_ne hne, hq']⟩
  · rw [hactive, lookup_insert_eq] at hq
    split_ifs at hq with hi
    · cases hq
      rw [hmap, if_pos rfl, hi]
    · have howned := h.owned k' q hq
      rw [hmap, if_neg fun heq => hi ?_, howned]
      have hown := h.owned k q ((hk q).2 (heq ▸ h.lookup_of_owned hq))
      exact Option.some.inj (howned.symm.trans hown)
  · rw [hactive]
    cases hp : peers.lookup (id peer) with
    | none =>
      have hfree : k ∉ ids.activeIDs := fun hmem => by
        obtain ⟨p, hp'⟩ := mem_iff_lookup.1 hmem
        rw [hk, hp] at hp'
        cases hp'
      rw [entries_insert_of_notMem hfree, entries_insert_of_notMem (lookup_eq_none.1 hp),
        length_cons, length_cons, h.count]
    | some p =>
      exact (length_insert_of_lookup ((hk p).2 hp) peer).trans
        (h.count.trans (length_insert_of_lookup hp peer).symm)

theorem Tracks.reclaim (h : Tracks id ids peers) (peerID : ID) :
    Tracks id (ids.reclaim peerID).2 (peers.erase peerID) := by
  cases hp : peers.lookup peerID with
  | none =>
    have hnot : peerID ∉ peers := lookup_eq_none.1 hp
    have hsame : peers.erase peerID = peers := by
      apply ext
      exact kerase_of_notMem_keys fun hk => hnot (mem_keys.2 hk)
    rw [MempoolIDs.reclaim, h.absent _ hp, hsame]
    exact h
  | some p =>
    obtain ⟨k, hk, hkp⟩ := h.assigned _ p hp
    rw [MempoolIDs.reclaim, hk]
    refine ⟨h.named.erase _, fun i hi => ?_, fun i q hq => ?_, fun k' q hq => ?_, ?_⟩
    · rw [lookup_erase_eq] at hi ⊢
      split_ifs at hi ⊢
      · rfl
      · exact h.absent i hi
    · rw [lookup_erase_eq] at hq
      split_ifs at hq with hi
      obtain ⟨k', hk', hq'⟩ := h.assigned i q hq
      have hne : k' ≠ k := by
        rintro rfl
        rw [hkp, Option.some.injEq] at hq'
        subst hq'
        exact hi ((h.named i p hq).symm.trans (h.named peerID p hp))
      exact ⟨k', (lookup_erase_ne hi).trans hk', (lookup_erase_ne hne).trans hq'⟩
    · rw [lookup_erase_eq] at hq
      split_ifs at hq with hi
      have hne : id q ≠ peerID := by
        intro heq
        have hq' := h.owned k' q hq
        rw [heq, hk, Option.some.injEq] at hq'
        exact hi hq'.symm
      exact (lookup_erase_ne hne).trans (h.owned k' q hq)
    · have h₁ := length_erase_of_lookup hkp
      have h₂ := length_erase_of_lookup hp
      have h₃ := h.count
      dsimp only
      omega

variable {calls : List (PeerCall ID Peer)}

theorem activePeers_concat (calls : List (PeerCall ID Peer)) (call : PeerCall ID Peer) :
    activePeers id (calls ++ [call]) =
      match call with
      | .reserveForPeer peer => (activePeers id calls).insert (id peer) peer
      | .reclaim peerID => (activePeers id calls).erase peerID := by
  rw [activePeers, foldl_append]
  rfl

theorem after_concat (h : after id calls = .ok ids) (call : PeerCall ID Peer) :
    after id (calls ++ [call]) = ids.step id call := by
  have hafter := h
  unfold after at hafter
  rw [after, foldlM_append, hafter]
  exact bind_pure (ids.step id call)

/-- At no time are more peers active than there are IDs to hand out. -/
def Bounded (id : Peer → ID) (calls : List (PeerCall ID Peer)) : Prop :=
  ∀ calls', calls' <+: calls → (activePeers id calls').entries.length ≤ maxActiveIDs

theorem Bounded.of_isPrefix {calls' : List (PeerCall ID Peer)} (h : Bounded id calls)
    (hle : calls' <+: calls) : Bounded id calls' :=
  fun _ hle' => h _ (hle'.trans hle)

theorem Bounded.spare (hbound : Bounded id (calls ++ [.reserveForPeer peer]))
    (h : Tracks id ids (activePeers id calls))
    (hnew : (activePeers id calls).lookup (id peer) = none) :
    ids.activeIDs.entries.length < maxActiveIDs := by
  have hle := hbound _ (prefix_refl _)
  rw [activePeers_concat] at hle
  dsimp only at hle
  rw [entries_insert_of_notMem (lookup_eq_none.1 hnew), length_cons, ← h.count] at hle
  omega

theorem tracks_after (hbound : Bounded id calls) :
    ∃ ids, after id calls = .ok ids ∧ Tracks id ids (activePeers id calls) := by
  induction calls using reverseRecOn with
  | nil =>
    refine ⟨newMempoolIDs, rfl, fun i p hp => ?_, fun i _ => rfl, fun i p hp => ?_,
      fun k p hp => ?_, rfl⟩
    all_goals exact absurd hp (by simp [activePeers, newMempoolIDs])
  | append_singleton calls call ih =>
    obtain ⟨ids, hids, htracks⟩ := ih (hbound.of_isPrefix (prefix_append ..))
    rw [after_concat hids, activePeers_concat]
    cases call with
    | reclaim peerID => exact ⟨_, rfl, htracks.reclaim peerID⟩
    | reserveForPeer peer =>
      cases hp : (activePeers id calls).lookup (id peer) with
      | none =>
        obtain ⟨k, hfree, hok, -⟩ :=
          reserveForPeer_new (htracks.absent _ hp) (hbound.spare htracks hp)
        refine ⟨_, hok, htracks.reserve (lookup_insert_eq _ _ · _) rfl fun p => ?_⟩
        rw [AList.lookup_eq_none.2 hfree, hp]
      | some p =>
        obtain ⟨k, hk, hkp⟩ := htracks.assigned _ p hp
        refine ⟨_, reserveForPeer_known hk, htracks.reserve (fun i => ?_) rfl fun q => by
          rw [hkp, hp]⟩
        split_ifs with hi
        · rw [hi, hk]
        · rfl

/-- Active peers have different IDs, none of which is the unknown peer's, and the lookups are
inverse to each other on them. -/
structure Unambiguous (id : Peer → ID) (ids : MempoolIDs ID Peer) (peers : Table ID Peer) :
    Prop where
  distinct : ∀ i ∈ peers, ∀ j ∈ peers, ids.getIDForPeer i = ids.getIDForPeer j → i = j
  known : ∀ i ∈ peers, ids.getIDForPeer i ≠ unknownPeerID
  getPeer_getIDForPeer : ∀ i p, peers.lookup i = some p → ids.getPeer (ids.getIDForPeer i) = some p
  getIDForPeer_getPeer : ∀ k p, ids.getPeer k = some p →
    peers.lookup (id p) = some p ∧ ids.getIDForPeer (id p) = k

theorem Tracks.getPeer_getIDForPeer (h : Tracks id ids peers) {i : ID} {p : Peer}
    (hp : peers.lookup i = some p) : ids.getPeer (ids.getIDForPeer i) = some p := by
  obtain ⟨k, hk, hkp⟩ := h.assigned i p hp
  rw [getIDForPeer, hk]
  exact hkp

theorem Tracks.unambiguous_iff (h : Tracks id ids peers) :
    Unambiguous id ids peers ↔ unknownPeerID ∉ ids.activeIDs := by
  constructor
  · intro hun hmem
    obtain ⟨p, hp⟩ := mem_iff_lookup.1 hmem
    obtain ⟨hlookup, hid⟩ := hun.getIDForPeer_getPeer _ p hp
    exact hun.known _ (mem_of_lookup hlookup) hid
  · intro hzero
    refine ⟨fun i hi j hj hij => ?_, fun i hi hun => ?_, fun i p => h.getPeer_getIDForPeer,
      fun k p hp => ⟨h.lookup_of_owned hp, ?_⟩⟩
    · obtain ⟨p, hp⟩ := mem_iff_lookup.1 hi
      obtain ⟨q, hq⟩ := mem_iff_lookup.1 hj
      have hpq := (h.getPeer_getIDForPeer hp).symm.trans (hij ▸ h.getPeer_getIDForPeer hq)
      rw [← h.named i p hp, ← h.named j q hq, Option.some.inj hpq]
    · obtain ⟨p, hp⟩ := mem_iff_lookup.1 hi
      have hget := h.getPeer_getIDForPeer hp
      rw [hun] at hget
      exact hzero (mem_of_lookup hget)
    · rw [getIDForPeer, h.owned k p hp]
      rfl

/-- Each new peer finds an ID above 0 without a wraparound of the counter. -/
def NeverWraps (id : Peer → ID) (calls : List (PeerCall ID Peer)) : Prop :=
  ∀ calls' peer, calls' ++ [.reserveForPeer peer] <+: calls → id peer ∉ activePeers id calls' →
    ∃ ids, after id calls' = .ok ids ∧ ids.Clear

theorem unknown_free (hbound : Bounded id calls) (hwraps : NeverWraps id calls)
    (hids : after id calls = .ok ids) : unknownPeerID ∉ ids.activeIDs := by
  induction calls using reverseRecOn generalizing ids with
  | nil =>
    cases hids
    exact notMem_empty _
  | append_singleton calls call ih =>
    have hbound' := hbound.of_isPrefix (prefix_append calls [call])
    obtain ⟨old, hold, htracks⟩ := tracks_after hbound'
    have hzero := ih hbound' (fun c p hle => hwraps c p (hle.trans (prefix_append ..))) hold
    rw [after_concat hold] at hids
    cases call with
    | reclaim peerID =>
      cases hids
      cases hk : old.peerMap.lookup peerID with
      | none => rwa [reclaim, hk]
      | some k =>
        rw [reclaim, hk]
        exact fun hmem => hzero (mem_erase.1 hmem).2
    | reserveForPeer peer =>
      cases hp : (activePeers id calls).lookup (id peer) with
      | none =>
        obtain ⟨k, -, hok, hclear⟩ :=
          reserveForPeer_new (htracks.absent _ hp) (hbound.spare htracks hp)
        obtain ⟨old', hold', hclear'⟩ :=
          hwraps calls peer (prefix_refl _) (lookup_eq_none.1 hp)
        obtain rfl := ok.inj (hold.symm.trans hold')
        obtain rfl := ok.inj (hok.symm.trans hids)
        intro hmem
        rcases (mem_insert _).1 hmem with hk | hmem
        · exact (hclear hzero).2 hclear' hk.symm
        · exact hzero hmem
      | some p =>
        obtain ⟨k, hk, hkp⟩ := htracks.assigned _ p hp
        obtain rfl := ok.inj ((reserveForPeer_known hk).symm.trans hids)
        intro hmem
        rcases (mem_insert _).1 hmem with rfl | hmem
        · exact hzero (mem_of_lookup hkp)
        · exact hzero hmem

/-- The IDs are unambiguous throughout a sequence of calls exactly if no new peer is reserved for
while every ID from the counter up is in use. -/
theorem unambiguous_iff_neverWraps (calls : List (PeerCall ID Peer)) (hbound : Bounded id calls) :
    (∀ calls', calls' <+: calls →
      ∃ ids, after id calls' = .ok ids ∧ Unambiguous id ids (activePeers id calls')) ↔
    NeverWraps id calls := by
  constructor
  · intro hall calls' peer hle hnew
    have hle' : calls' <+: calls := (prefix_append ..).trans hle
    obtain ⟨ids, hids, htracks⟩ := tracks_after (hbound.of_isPrefix hle')
    have hp : (activePeers id calls').lookup (id peer) = none := lookup_eq_none.2 hnew
    obtain ⟨k, -, hok, hclear⟩ :=
      reserveForPeer_new (htracks.absent _ hp) ((hbound.of_isPrefix hle).spare htracks hp)
    have hzero : unknownPeerID ∉ ids.activeIDs := by
      obtain ⟨ids', hids', hun⟩ := hall calls' hle'
      obtain rfl := ok.inj (hids.symm.trans hids')
      exact htracks.unambiguous_iff.1 hun
    refine ⟨ids, hids, (hclear hzero).1 fun hk => ?_⟩
    obtain ⟨ids', hids', hun⟩ := hall _ hle
    rw [after_concat hids] at hids'
    obtain rfl := ok.inj (hok.symm.trans hids')
    apply hun.known (id peer)
    · rw [activePeers_concat]
      exact (mem_insert _).2 (.inl rfl)
    · rw [getIDForPeer, lookup_insert, hk]
      rfl
  · intro hwraps calls' hle
    obtain ⟨ids, hids, htracks⟩ := tracks_after (hbound.of_isPrefix hle)
    refine ⟨ids, hids, htracks.unambiguous_iff.2 ?_⟩
    exact unknown_free (hbound.of_isPrefix hle)
      (fun c p hle' => hwraps c p (hle'.trans hle)) hids

theorem exists_reserve_of_mem {i : ID} (h : i ∈ activePeers id calls) :
    ∃ peer, .reserveForPeer peer ∈ calls ∧ id peer = i := by
  induction calls using reverseRecOn with
  | nil => exact absurd h (notMem_empty i)
  | append_singleton calls call ih =>
    rw [activePeers_concat] at h
    cases call with
    | reclaim =>
      obtain ⟨peer, hmem, hid⟩ := ih (mem_erase.1 h).2
      exact ⟨peer, mem_append_left _ hmem, hid⟩
    | reserveForPeer peer =>
      rcases (mem_insert _).1 h with rfl | h
      · exact ⟨peer, mem_append_right _ (mem_singleton_self _), rfl⟩
      · obtain ⟨peer', hmem, hid⟩ := ih h
        exact ⟨peer', mem_append_left _ hmem, hid⟩

theorem bounded_of_sole (i : ID) (h : ∀ peer, .reserveForPeer peer ∈ calls → id peer = i) :
    Bounded id calls := by
  intro calls' hle
  have hsub : (activePeers id calls').keys ⊆ [i] := by
    intro j hj
    obtain ⟨peer, hmem, hid⟩ := exists_reserve_of_mem (mem_keys.2 hj)
    exact List.mem_singleton.2 (hid.symm.trans (h peer (hle.subset hmem)))
  have hlen := ((activePeers id calls').keys_nodup.subperm hsub).length_le
  rw [AList.keys, List.keys, List.length_map, List.length_singleton] at hlen
  exact hlen.trans (by decide)

/-- One peer connects and is removed `n` times. -/
def reconnects (n : ℕ) : List (PeerCall String String) :=
  (List.replicate n [.reserveForPeer "peer", .reclaim "peer"]).flatten

theorem reserve_alone (k : UInt16) (p : String) :
    reserveForPeer (fun p => p) ⟨∅, k, ∅⟩ p = .ok ⟨singleton p k, k + 1, singleton k p⟩ := rfl

theorem reclaim_alone (k next : UInt16) (p : String) :
    (reclaim ⟨singleton p k, next, singleton k p⟩ p).2 = ⟨∅, next, ∅⟩ := by
  have hlookup : (singleton p k : Table String UInt16).lookup p = some k :=
    mem_lookup_iff.2 (mem_singleton_self _)
  have hpeer : (singleton p k : Table String UInt16).erase p = ∅ :=
    ext (kerase_cons_eq rfl)
  have hactive : (singleton k p : Table UInt16 String).erase k = ∅ :=
    ext (kerase_cons_eq rfl)
  rw [reclaim, hlookup]
  dsimp only
  rw [hpeer, hactive]

theorem after_reconnects (n : ℕ) :
    after (fun p => p) (reconnects n) = .ok ⟨∅, firstPeerID + ofNat n, ∅⟩ := by
  induction n with
  | zero => rfl
  | succ n ih =>
    have hsplit : reconnects (n + 1) =
        (reconnects n ++ [.reserveForPeer "peer"]) ++ [.reclaim "peer"] := by
      rw [reconnects, replicate_succ', flatten_concat, append_assoc]
      rfl
    have hnext : firstPeerID + ofNat (n + 1) = firstPeerID + ofNat n + 1 := by
      rw [UInt16.ofNat_add, UInt16.add_assoc]
      rfl
    have hreserve := (after_concat ih (.reserveForPeer "peer")).trans (reserve_alone _ _)
    rw [hsplit, after_concat hreserve, hnext]
    exact congrArg ok (reclaim_alone ..)

/-- A peer that has connected 65535 times before gets the ID of the unknown peer. -/
theorem reconnected_peer_is_unknown :
    Bounded (fun p => p) (reconnects 65535 ++ [.reserveForPeer "peer"]) ∧
    "peer" ∈ activePeers (fun p => p) (reconnects 65535 ++ [.reserveForPeer "peer"]) ∧
    ∃ ids, after (fun p => p) (reconnects 65535 ++ [.reserveForPeer "peer"]) = .ok ids ∧
      ids.getIDForPeer "peer" = unknownPeerID := by
  refine ⟨bounded_of_sole "peer" fun p hp => ?_, ?_, _,
    (after_concat (after_reconnects 65535) _).trans (reserve_alone _ _), by decide⟩
  · rcases mem_append.1 hp with hp | hp
    · obtain ⟨l, hl, hp⟩ := mem_flatten.1 hp
      rw [eq_of_mem_replicate hl] at hp
      simpa using hp
    · simpa using hp
  · rw [activePeers_concat]
    exact (mem_insert _).2 (.inl rfl)

/-- Two peers, one of which leaves and comes back. -/
theorem unambiguous_iff_neverWraps_two :
    Bounded (fun p : String => p) [.reserveForPeer "a", .reserveForPeer "b", .reclaim "a",
      .reserveForPeer "a"] ∧
    ((∀ calls', calls' <+: [.reserveForPeer "a", .reserveForPeer "b", .reclaim "a",
        .reserveForPeer "a"] →
      ∃ ids, after (fun p : String => p) calls' = .ok ids ∧
        Unambiguous (fun p => p) ids (activePeers (fun p => p) calls')) ↔
    NeverWraps (fun p : String => p) [.reserveForPeer "a", .reserveForPeer "b", .reclaim "a",
      .reserveForPeer "a"]) := by
  have hbound : Bounded (fun p : String => p) [.reserveForPeer "a", .reserveForPeer "b",
      .reclaim "a", .reserveForPeer "a"] := by
    intro calls' hle
    have hmem := (mem_inits _ _).2 hle
    fin_cases hmem <;> decide
  exact ⟨hbound, unambiguous_iff_neverWraps _ hbound⟩

end MempoolIDs
end CelestiaCore.Mempool
