import CelestiaCore.BlockSync.LastCommits

/-!
# Blocks of removed peers

The redo messages of `blocksync/pool.go`, by which the requesters hear that a peer is gone.
-/
namespace CelestiaCore.BlockSync
open Keyed SM Table
open Reactor (synced5 syncConfig)

namespace Requester

def Asked (bpr : Requester) : Prop := bpr.block.isSome → bpr.gotBlockFrom ∈ bpr.requestedFromPeers

abbrev HoldsFrom (bpr : Requester) (peerID : PeerID) : Prop :=
  bpr.block.isSome ∧ bpr.gotBlockFrom = peerID

/-- A block of the peer is held only while the redo for it waits. -/
def Marked (bpr : Requester) (peerID : PeerID) : Prop :=
  bpr.HoldsFrom peerID → bpr.redoCh = some peerID

end Requester

inductive PoolCall where
  | event (e : PoolEvent)
  | popRequest
  | removePeerAndRedoAllPeerRequests (height : Int64)

/-- The call delivers a block of the peer. -/
def PoolCall.Answers (peerID : PeerID) : PoolCall → Prop
  | .event (.addBlock p ..) => p = peerID
  | _ => False

namespace Pool

def call (crypto : Crypto) (hs : BlockHashes) (pool : Pool) : PoolCall → Pool
  | .event e => pool.step crypto hs e
  -- A pop without a requester panics.
  | .popRequest => pool.popRequest.getD pool
  | .removePeerAndRedoAllPeerRequests height => pool.removePeerAndRedoAllPeerRequests height

def calls (crypto : Crypto) (hs : BlockHashes) (pool : Pool) (cs : List PoolCall) : Pool :=
  cs.foldl (call crypto hs) pool

/-- The call takes the peer out of the pool. -/
def Removes (pool : Pool) (peerID : PeerID) : PoolCall → Prop
  | .event (.removePeer p) => p = peerID
  | .removePeerAndRedoAllPeerRequests height =>
    (pool.requesters.lookup height).map (·.gotBlockFrom) = some peerID
  | _ => False

abbrev All (P : Requester → Prop) (pool : Pool) : Prop := ∀ r ∈ values pool.requesters, P r

variable {crypto : Crypto} {hs : BlockHashes} {pool : Pool} {P : Requester → Prop} {peerID : PeerID}
  {c : PoolCall} {e : PoolEvent} {k : Int64}

theorem All.lookup (h : pool.All P) {r : Requester} (hr : pool.requesters.lookup k = some r) :
    P r :=
  h r (mem_values.2 ⟨k, hr⟩)

/-- What every change of a requester keeps, the pool keeps. -/
theorem All.call (h : pool.All P)
    (hchange : ∀ e k o r', Change pool k e o (some r') → (∀ r, o = some r → P r) →
      (∀ p, ¬c.Answers p → ¬(PoolCall.event e).Answers p) → P r') :
    (pool.call crypto hs c).All P := by
  intro r' hmem
  obtain ⟨k, hr'⟩ := mem_values.1 hmem
  cases c with
  | event e =>
    exact hchange e k _ r' (hr' ▸ step_change crypto hs pool e k) (fun _ => h.lookup) fun _ h => h
  | popRequest =>
    simp only [Pool.call, popRequest] at hr'
    cases hpop : pool.requesters.lookup pool.height with
    | none =>
      rw [hpop] at hr'
      exact h.lookup hr'
    | some =>
      rw [hpop, Option.map_some, Option.getD_some, lookup_erase_eq] at hr'
      split_ifs at hr'
      exact h.lookup hr'
  | removePeerAndRedoAllPeerRequests height =>
    simp only [Pool.call, removePeerAndRedoAllPeerRequests] at hr'
    split at hr'
    · exact h.lookup hr'
    · next request _ =>
      exact hchange (.removePeer request.gotBlockFrom) k _ r' (hr' ▸ removePeer_change _ pool _ k)
        (fun _ => h.lookup) fun _ _ => id

open Requester

variable {o : Option Requester}

/-- A block that is held after a change was held before, of the same peer and with its redo still
waiting, or has just arrived from a peer that was asked. -/
theorem Change.held {r' : Requester} (h : Change pool k e o (some r')) (hblock : r'.block.isSome) :
    (∃ r, o = some r ∧ r.block.isSome ∧ r'.gotBlockFrom = r.gotBlockFrom ∧
      r.requestedFromPeers ⊆ r'.requestedFromPeers ∧
      (r.redoCh = some r.gotBlockFrom → r'.redoCh = some r.gotBlockFrom)) ∨
    r'.gotBlockFrom ∈ r'.requestedFromPeers ∧ (PoolCall.event e).Answers r'.gotBlockFrom := by
  cases h with
  | same => exact .inl ⟨r', rfl, hblock, rfl, List.Subset.refl _, id⟩
  | new => cases hblock
  | pick r peer =>
    refine .inl ⟨r, rfl, ?_⟩
    grind [pickPeerAndSendRequest]
  | retry r =>
    -- a timer drops the block of the peer, or leaves it
    refine .inl ⟨r, rfl, ?_⟩
    grind [onRetryTimer, resetAll, tryRemoveBlock]
  | handleRedo r =>
    -- a redo for the sender drops the block
    refine .inl ⟨r, rfl, ?_⟩
    grind [onRedo, reset, tryRemoveBlock, clearPeer]
  | gotBlock r =>
    refine .inl ⟨r, rfl, ?_⟩
    grind [onGotBlock]
  | redo e r peerID =>
    refine .inl ⟨r, rfl, hblock, rfl, List.Subset.refl _, fun hredo => ?_⟩
    simp [Requester.redo, hredo]
  | @setBlock r _ peerID _ _ _ _ _ hset =>
    unfold Requester.setBlock at hset
    by_cases hheld : r.block.isSome
    · refine .inl ⟨r, rfl, hheld, ?_⟩
      grind [clearPeer]
    · refine .inr ?_
      grind [clearPeer, PoolCall.Answers]

theorem Change.asked {r' : Requester} (h : Change pool k e o (some r'))
    (ho : ∀ r, o = some r → r.Asked) : r'.Asked := by
  intro hblock
  obtain ⟨r, hr, hheld, hfrom, hsub, -⟩ | ⟨hmem, -⟩ := h.held hblock
  · exact hfrom ▸ hsub (ho r hr hheld)
  · exact hmem

theorem Change.marked {r' : Requester} (h : Change pool k e o (some r'))
    (hno : ¬(PoolCall.event e).Answers peerID) (ho : ∀ r, o = some r → r.Marked peerID) :
    r'.Marked peerID := by
  rintro ⟨hblock, rfl⟩
  obtain ⟨r, hr, hheld, hfrom, -, hredo⟩ | ⟨-, hanswers⟩ := h.held hblock
  · rw [hfrom] at ho ⊢
    exact hredo (ho r hr ⟨hheld, rfl⟩)
  · exact absurd hanswers hno

theorem All.calls {cs : List PoolCall} (h : pool.All P)
    (hchange : ∀ c ∈ cs, ∀ pool e k o r', Change pool k e o (some r') → (∀ r, o = some r → P r) →
      (∀ p, ¬c.Answers p → ¬(PoolCall.event e).Answers p) → P r') :
    (pool.calls crypto hs cs).All P := by
  induction cs generalizing pool with
  | nil => exact h
  | cons c cs ih =>
    rw [List.forall_mem_cons] at hchange
    exact ih (h.call (hchange.1 pool)) hchange.2

theorem call_of_removes (crypto : Crypto) (hs : BlockHashes) (h : pool.Removes peerID c) :
    pool.call crypto hs c = pool.removePeer peerID := by
  unfold Removes at h
  split at h
  · rw [← h]
    rfl
  · next height =>
    obtain ⟨r, hr, rfl⟩ := Option.map_eq_some_iff.1 h
    simp only [call, removePeerAndRedoAllPeerRequests, hr]
  · cases h

theorem All.marked (h : pool.All Asked)
    (hroom : pool.All fun r => r.HoldsFrom peerID → r.redoCh.getD peerID = peerID) :
    (pool.removePeer peerID).All (·.Marked peerID) := by
  intro r hmem
  obtain ⟨k, hr⟩ := mem_values.1 hmem
  rw [removePeer, lookup_mapValues] at hr
  obtain ⟨r', hr', rfl⟩ := Option.map_eq_some_iff.1 hr
  have hasked := h.lookup hr'
  have hempty := hroom.lookup hr'
  grind [Asked, Marked, Requester.redo, didRequestFrom]

/-- The blocks of a peer are gone with the redo messages, if there was room for those at its removal
and no block of it arrives later. -/
theorem removed_peer_blocks_dropped (crypto : Crypto) (hs : BlockHashes) (start : Int64)
    (before after : List PoolCall) (c : PoolCall) (peerID : PeerID)
    (hremoves : ((newBlockPool start).calls crypto hs before).Removes peerID c)
    (hroom : ((newBlockPool start).calls crypto hs before).All fun r =>
      r.HoldsFrom peerID → r.redoCh.getD peerID = peerID)
    (hlate : ∀ c ∈ after, ¬c.Answers peerID)
    (hconsumed : ((newBlockPool start).calls crypto hs (before ++ c :: after)).All
      (·.redoCh = none)) :
    ((newBlockPool start).calls crypto hs (before ++ c :: after)).All (¬·.HoldsFrom peerID) := by
  have hrun : (newBlockPool start).calls crypto hs (before ++ c :: after) =
      (((newBlockPool start).calls crypto hs before).removePeer peerID).calls crypto hs after := by
    rw [← call_of_removes crypto hs hremoves]
    exact List.foldl_append
  rw [hrun] at hconsumed ⊢
  intro r hr hholds
  have hasked : ((newBlockPool start).calls crypto hs before).All Asked :=
    All.calls nofun fun _ _ _ _ _ _ _ hchange ho _ => hchange.asked ho
  have hmarked := (hasked.marked hroom).calls (fun c hc _ _ _ _ _ hchange ho hno =>
    hchange.marked (hno peerID (hlate c hc)) ho) r hr hholds
  exact absurd ((hconsumed r hr).symm.trans hmarked) nofun

/-- The requester at 5 has asked `a` and then `b`, which sends the block. -/
def fetched5 : List PoolCall :=
  [.event .makeNextRequester, .event (.pickPeer 5 "a"), .event (.retryTimer 5),
    .event (.pickPeer 5 "b"), .event (.addBlock "b" synced5 none false)]

theorem removed_peer_blocks_dropped_one : ((newBlockPool 5).calls syncConfig.crypto.toCrypto
    syncConfig.hs (fetched5 ++ [.event (.removePeer "b"), .event (.handleRedo 5)])).All
      (¬·.HoldsFrom "b") :=
  removed_peer_blocks_dropped _ _ 5 fetched5 [.event (.handleRedo 5)] _ "b" rfl (by decide +kernel)
    (by simp [PoolCall.Answers]) (by decide +kernel)

/-- The message for `a` takes the place of the one for `b`. -/
theorem lost_redo_keeps_block : (((newBlockPool 5).calls syncConfig.crypto.toCrypto syncConfig.hs
    (fetched5 ++ [.event (.removePeer "a"), .event (.removePeer "b"), .event (.handleRedo 5)])
      ).requesters.lookup 5).map (fun r => (r.redoCh, r.block.isSome, r.gotBlockFrom)) =
        some (none, true, "b") := by
  decide +kernel

end Pool
end CelestiaCore.BlockSync
