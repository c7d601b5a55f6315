import CelestiaCore.Keyed.Table
import CelestiaCore.State.Validation

/-!
# The block pool

The requesters of `blocksync/pool.go`. The choice of a peer, the timer and the handling of a redo
are steps of a requester, taken at any time. -/
namespace CelestiaCore.BlockSync
open Keyed SM Option Int64

/-- `p2p.ID`; the empty one stands for no peer. -/
abbrev PeerID := String

structure Requester where
  /-- The peer with the request that is out. -/
  peerID : PeerID
  requestedFromPeers : List PeerID
  gotBlockFrom : PeerID
  block : Option FullBlock
  extCommit : Option ExtendedCommit
  /-- The channels have room for one value. -/
  redoCh : Option PeerID
  gotBlockCh : Bool
  /-- The routine is at the head of its outer loop. -/
  picking : Bool
  gotBlock : Bool
  ignorePeerID : PeerID

namespace Requester

def newBPRequester : Requester := ⟨"", [], "", none, none, none, false, true, false, ""⟩

def clearPeer (bpr : Requester) (peerID : PeerID) : Requester :=
  if bpr.peerID = peerID then { bpr with peerID := "" } else bpr

/-- `setBlock`: whether the block was set. -/
def setBlock (bpr : Requester) (block : FullBlock) (extCommit : Option ExtendedCommit)
    (peerID : PeerID) : Except String (Requester × Bool) :=
  if peerID ∉ bpr.requestedFromPeers then .error "block not requested from peer"
  else
    let bpr := bpr.clearPeer peerID
    if bpr.block.isSome then .ok (bpr, false)
    else
      .ok ({ bpr with block := some block, extCommit, gotBlockFrom := peerID, gotBlockCh := true },
        true)

def didRequestFrom (bpr : Requester) (peerID : PeerID) : Prop := peerID ∈ bpr.requestedFromPeers

instance (bpr : Requester) (peerID : PeerID) : Decidable (bpr.didRequestFrom peerID) :=
  inferInstanceAs (Decidable (_ ∈ _))

def tryRemoveBlock (bpr : Requester) (peerID : PeerID) : Requester :=
  if bpr.gotBlockFrom = peerID then
    { bpr with block := none, extCommit := none, gotBlockFrom := "" }
  else bpr

def resetAll (bpr : Requester) : Requester :=
  if bpr.peerID ≠ "" then { bpr.tryRemoveBlock bpr.peerID with peerID := "" } else bpr

def reset (bpr : Requester) (peerID : PeerID) : Requester :=
  (bpr.tryRemoveBlock peerID).clearPeer peerID

/-- `redo`, which does nothing if another redo was already requested. -/
def redo (bpr : Requester) (peerID : PeerID) : Requester :=
  { bpr with redoCh := bpr.redoCh.orElse fun _ => some peerID }

/-- `pickPeerAndSendRequest` with the peer that it finds; the routine then waits. -/
def pickPeerAndSendRequest (bpr : Requester) (peer : PeerID) : Requester :=
  if bpr.picking = false then bpr
  else if bpr.peerID ≠ "" then { bpr with picking := false }
  else if peer = "" ∨ peer = bpr.ignorePeerID then bpr
  else
    { bpr with
      picking := false
      peerID := peer
      requestedFromPeers := bpr.requestedFromPeers.insert peer }

/-- The case of the retry timer in `requestRoutine`. -/
def onRetryTimer (bpr : Requester) : Requester :=
  if bpr.picking ∨ bpr.gotBlock then bpr
  else { bpr.resetAll with ignorePeerID := bpr.peerID, picking := true }

/-- The case of `redoCh` in `requestRoutine`. -/
def onRedo (bpr : Requester) : Requester :=
  if bpr.picking then bpr
  else
    match bpr.redoCh with
    | none => bpr
    | some peerID =>
      let removedBlock := bpr.gotBlockFrom = peerID
      let bpr := { bpr.reset peerID with redoCh := none }
      let bpr := { bpr with gotBlock := if removedBlock then false else bpr.gotBlock }
      if bpr.peerID = "" then { bpr with ignorePeerID := peerID, picking := true } else bpr

/-- The case of `gotBlockCh` in `requestRoutine`. -/
def onGotBlock (bpr : Requester) : Requester :=
  if bpr.picking ∨ bpr.gotBlockCh = false then bpr
  else { bpr with gotBlockCh := false, gotBlock := true }

def DropsOnRetryTimer (bpr : Requester) : Prop :=
  bpr.picking = false ∧ bpr.gotBlock = false ∧ bpr.peerID ≠ "" ∧ bpr.gotBlockFrom = bpr.peerID

def DropsOnRedo (bpr : Requester) : Prop :=
  bpr.picking = false ∧ bpr.redoCh = some bpr.gotBlockFrom

instance (bpr : Requester) : Decidable bpr.DropsOnRetryTimer := inferInstanceAs (Decidable (_ ∧ _))

instance (bpr : Requester) : Decidable bpr.DropsOnRedo := inferInstanceAs (Decidable (_ ∧ _))

variable {bpr bpr' : Requester} {block b : FullBlock} {extCommit : Option ExtendedCommit}
  {peerID : PeerID} {set : Bool}

theorem tryRemoveBlock_block (bpr : Requester) (peerID : PeerID) :
    (bpr.tryRemoveBlock peerID).block = bpr.block ∨
      bpr.gotBlockFrom = peerID ∧ (bpr.tryRemoveBlock peerID).block = none := by
  unfold tryRemoveBlock
  split_ifs with hfrom
  · exact .inr ⟨hfrom, rfl⟩
  · exact .inl rfl

@[simp] theorem clearPeer_block (bpr : Requester) (peerID : PeerID) :
    (bpr.clearPeer peerID).block = bpr.block := by
  unfold clearPeer
  split_ifs <;> rfl

theorem reset_block (bpr : Requester) (peerID : PeerID) :
    (bpr.reset peerID).block = (bpr.tryRemoveBlock peerID).block :=
  clearPeer_block _ _

@[simp] theorem pickPeerAndSendRequest_block (bpr : Requester) (peer : PeerID) :
    (bpr.pickPeerAndSendRequest peer).block = bpr.block := by
  unfold pickPeerAndSendRequest
  split_ifs <;> rfl

@[simp] theorem onGotBlock_block (bpr : Requester) : bpr.onGotBlock.block = bpr.block := by
  unfold onGotBlock
  split_ifs <;> rfl

theorem onRetryTimer_block (bpr : Requester) :
    bpr.onRetryTimer.block = bpr.block ∨ bpr.DropsOnRetryTimer ∧ bpr.onRetryTimer.block = none := by
  unfold onRetryTimer resetAll
  split_ifs with hidle hout
  · exact .inl rfl
  · rw [not_or, Bool.not_eq_true, Bool.not_eq_true] at hidle
    rcases tryRemoveBlock_block bpr bpr.peerID with hkept | ⟨hfrom, hnone⟩
    · exact .inl hkept
    · exact .inr ⟨⟨hidle.1, hidle.2, hout, hfrom⟩, hnone⟩
  · exact .inl rfl

theorem onRedo_block (bpr : Requester) :
    bpr.onRedo.block = bpr.block ∨ bpr.DropsOnRedo ∧ bpr.onRedo.block = none := by
  unfold onRedo
  split_ifs with hpick
  · exact .inl rfl
  cases hredo : bpr.redoCh with
  | none => exact .inl rfl
  | some peerID =>
    have hreset := reset_block bpr peerID
    rcases tryRemoveBlock_block bpr peerID with hkept | ⟨hfrom, hnone⟩
    · refine .inl ?_
      dsimp only
      split_ifs <;> exact hreset.trans hkept
    · rw [Bool.not_eq_true] at hpick
      refine .inr ⟨⟨hpick, hredo.trans (congrArg some hfrom.symm)⟩, ?_⟩
      dsimp only
      split_ifs <;> exact hreset.trans hnone

theorem setBlock_block (h : bpr.setBlock block extCommit peerID = .ok (bpr', set)) :
    bpr'.block = some (bpr.block.getD block) := by
  simp only [setBlock, clearPeer_block] at h
  split_ifs at h with hreq hsome
  · cases h
    obtain ⟨b, hb⟩ := isSome_iff_exists.1 hsome
    rw [clearPeer_block, hb, getD_some]
  · cases h
    rw [not_isSome_iff_eq_none.1 hsome, getD_none]

end Requester

/-- `BlockPool`. -/
structure Pool where
  requesters : Table Int64 Requester
  height : Int64
  startHeight : Int64

def defaultMaxRequesters : ℕ := 40

namespace Pool

def newBlockPool (start : Int64) : Pool := ⟨∅, start, start⟩

def modify (pool : Pool) (height : Int64) (f : Requester → Requester) : Pool :=
  match pool.requesters.lookup height with
  | none => pool
  | some requester => { pool with requesters := pool.requesters.insert height (f requester) }

/-- The loop of `makeRequestersRoutine`, while the peers have more blocks. A `PopRequest` in between
changes nothing about the next height. -/
def makeNextRequester (pool : Pool) : Pool :=
  let nextHeight := pool.height + ofNat pool.requesters.entries.length
  if defaultMaxRequesters ≤ pool.requesters.entries.length then pool
  else { pool with requesters := pool.requesters.insert nextHeight .newBPRequester }

def peekTwoBlocks (pool : Pool) : Option FullBlock × Option FullBlock × Option ExtendedCommit :=
  ((pool.requesters.lookup pool.height).bind (·.block),
    (pool.requesters.lookup (pool.height + 1)).bind (·.block),
    (pool.requesters.lookup pool.height).bind (·.extCommit))

/-- `PopRequest`, with `none` for its panic. -/
def popRequest (pool : Pool) : Option Pool :=
  (pool.requesters.lookup pool.height).map fun _ =>
    { pool with requesters := pool.requesters.erase pool.height, height := pool.height + 1 }

def removePeer (pool : Pool) (peerID : PeerID) : Pool :=
  { pool with
    requesters := pool.requesters.mapValues fun requester =>
      if requester.didRequestFrom peerID then requester.redo peerID else requester }

def removePeerAndRedoAllPeerRequests (pool : Pool) (height : Int64) : Pool :=
  match pool.requesters.lookup height with
  | none => pool
  | some request => pool.removePeer request.gotBlockFrom

def redoRequestFrom (pool : Pool) (height : Int64) (peerID : PeerID) : Pool :=
  pool.modify height fun requester =>
    if requester.didRequestFrom peerID then requester.redo peerID else requester

/-- `addBlock`: the error and whether the peer is removed for it. -/
def addBlock (pool : Pool) (peerID : PeerID) (block : FullBlock) (extCommit : Option ExtendedCommit)
    (isPeerBanned : Bool) : Pool × Option String × Bool :=
  let height := block.header.height
  match extCommit.filter (·.height ≠ height) with
  | some ec => (pool, some s!"block height {height} != extCommit height {ec.height}", true)
  | none =>
    match pool.requesters.lookup height with
    | none =>
      if pool.height < height ∨ height < pool.startHeight then
        (pool, some (s!"peer sent us block #{height} we didn't expect " ++
          s!"(current height: {pool.height}, start height: {pool.startHeight})"), true)
      else
        (pool, some (s!"got an already committed block #{height} " ++
          s!"(possibly from the slow peer {peerID})"), false)
    | some requester =>
      match requester.setBlock block extCommit peerID with
      | .error err =>
        if isPeerBanned then (pool, none, false)
        else
          (pool, some s!"requested block #{height} from {requester.peerID}, not {peerID}, {err}",
            true)
      | .ok (requester, _) =>
        ({ pool with requesters := pool.requesters.insert height requester }, none, false)

end Pool

inductive PoolEvent where
  /-- The pool makes a requester for the next height. -/
  | makeNextRequester
  /-- The requester at a height finds a peer. -/
  | pickPeer (height : Int64) (peer : PeerID)
  | retryTimer (height : Int64)
  | handleRedo (height : Int64)
  | gotBlock (height : Int64)
  /-- A response with a block. -/
  | addBlock (peerID : PeerID) (block : FullBlock) (extCommit : Option ExtendedCommit)
      (isPeerBanned : Bool)
  /-- A response without the block. -/
  | noBlock (height : Int64) (peerID : PeerID)
  /-- The peer is gone, was too slow or reported a wrong range. -/
  | removePeer (peerID : PeerID)

namespace Pool

def step (crypto : Crypto) (hs : BlockHashes) (pool : Pool) : PoolEvent → Pool
  | .makeNextRequester => pool.makeNextRequester
  | .pickPeer height peer => pool.modify height (·.pickPeerAndSendRequest peer)
  | .retryTimer height => pool.modify height (·.onRetryTimer)
  | .handleRedo height => pool.modify height (·.onRedo)
  | .gotBlock height => pool.modify height (·.onGotBlock)
  | .addBlock peerID block extCommit isPeerBanned =>
    -- `BlockFromProto` ends with the basic validation of the block.
    match block.validateBasic crypto hs with
    | .error _ => pool
    | .ok () => (pool.addBlock peerID block extCommit isPeerBanned).1
  | .noBlock height peerID => pool.redoRequestFrom height peerID
  | .removePeer peerID => pool.removePeer peerID

def Sorted (pool : Pool) : Prop :=
  ∀ height requester block, pool.requesters.lookup height = some requester →
    requester.block = some block → block.header.height = height

/-- What a pool may do between two looks of the reactor: its height stays and no requester goes. -/
structure Moves (pool pool' : Pool) : Prop where
  height : pool'.height = pool.height
  mem : ∀ height, height ∈ pool.requesters → height ∈ pool'.requesters
  sorted : pool.Sorted → pool'.Sorted

def Keeps (pool pool' : Pool) (height : Int64) : Prop :=
  ∀ requester block, pool.requesters.lookup height = some requester → requester.block = some block →
    ∃ requester', pool'.requesters.lookup height = some requester' ∧ requester'.block = some block

/-- What an event can do to the requester at a height. -/
inductive Change (pool : Pool) (k : Int64) : PoolEvent → Option Requester → Option Requester → Prop
  | same (e : PoolEvent) (r : Option Requester) : Change pool k e r r
  | new (r : Option Requester) : k = pool.height + ofNat pool.requesters.entries.length →
      pool.requesters.entries.length < defaultMaxRequesters →
      Change pool k .makeNextRequester r (some .newBPRequester)
  | pick (r : Requester) (peer : PeerID) :
      Change pool k (.pickPeer k peer) (some r) (some (r.pickPeerAndSendRequest peer))
  | retry (r : Requester) : Change pool k (.retryTimer k) (some r) (some r.onRetryTimer)
  | handleRedo (r : Requester) : Change pool k (.handleRedo k) (some r) (some r.onRedo)
  | gotBlock (r : Requester) : Change pool k (.gotBlock k) (some r) (some r.onGotBlock)
  | redo (e : PoolEvent) (r : Requester) (peerID : PeerID) : r.didRequestFrom peerID →
      Change pool k e (some r) (some (r.redo peerID))
  | setBlock {r r' : Requester} {peerID : PeerID} {block : FullBlock}
      {extCommit : Option ExtendedCommit} {isPeerBanned set : Bool} : block.header.height = k →
      r.setBlock block extCommit peerID = .ok (r', set) →
      Change pool k (.addBlock peerID block extCommit isPeerBanned) (some r) (some r')

section Steps
variable {pool pool' : Pool} {height k : Int64} {f : Requester → Requester} {e : PoolEvent}
  {crypto : Crypto} {hs : BlockHashes}

theorem modify_lookup (pool : Pool) (height k : Int64) (f : Requester → Requester) :
    (pool.modify height f).requesters.lookup k =
      if k = height then (pool.requesters.lookup k).map f else pool.requesters.lookup k := by
  unfold modify
  cases hlookup : pool.requesters.lookup height with
  | none =>
    split_ifs with hk
    · rw [hk, hlookup, map_none]
    · rfl
  | some requester =>
    rw [Table.lookup_insert_eq]
    split_ifs with hk
    · rw [hk, hlookup, map_some]
    · rfl

theorem modify_height (pool : Pool) (height : Int64) (f : Requester → Requester) :
    (pool.modify height f).height = pool.height := by
  unfold modify
  split <;> rfl

theorem modify_change (hf : ∀ r, Change pool height e (some r) (some (f r))) (k : Int64) :
    Change pool k e (pool.requesters.lookup k) ((pool.modify height f).requesters.lookup k) := by
  rw [modify_lookup]
  split_ifs with hk
  · rw [hk]
    cases pool.requesters.lookup height with
    | none => exact .same e none
    | some r => exact hf r
  · exact .same e _

theorem redoRequestFrom_change (e : PoolEvent) (r : Requester) (peerID : PeerID) :
    Change pool k e (some r) (some (if r.didRequestFrom peerID then r.redo peerID else r)) := by
  split_ifs with hreq
  · exact .redo e r peerID hreq
  · exact .same e _

theorem removePeer_change (e : PoolEvent) (pool : Pool) (peerID : PeerID) (k : Int64) :
    Change pool k e (pool.requesters.lookup k) ((pool.removePeer peerID).requesters.lookup k) := by
  rw [removePeer, Table.lookup_mapValues]
  cases pool.requesters.lookup k with
  | none => exact .same e none
  | some r => exact redoRequestFrom_change e r peerID

theorem addBlock_change (pool : Pool) (peerID : PeerID) (block : FullBlock)
    (extCommit : Option ExtendedCommit) (isPeerBanned : Bool) (k : Int64) :
    Change pool k (.addBlock peerID block extCommit isPeerBanned) (pool.requesters.lookup k)
      ((pool.addBlock peerID block extCommit isPeerBanned).1.requesters.lookup k) := by
  unfold addBlock
  dsimp only
  split
  · exact .same ..
  split
  · split_ifs <;> exact .same ..
  · next requester hlookup =>
    split
    · split_ifs <;> exact .same ..
    · next r' set hset =>
      rw [Table.lookup_insert_eq]
      split_ifs with hk
      · rw [hk, hlookup]
        exact .setBlock rfl hset
      · exact .same ..

theorem step_change (crypto : Crypto) (hs : BlockHashes) (pool : Pool) (e : PoolEvent) (k : Int64) :
    Change pool k e (pool.requesters.lookup k) ((pool.step crypto hs e).requesters.lookup k) := by
  cases e with
  | makeNextRequester =>
    simp only [step, makeNextRequester]
    split_ifs with hfull
    · exact .same ..
    rw [Table.lookup_insert_eq]
    split_ifs with hk
    · exact .new _ hk (not_le.1 hfull)
    · exact .same ..
  | pickPeer height peer => exact modify_change (.pick · peer) k
  | retryTimer height => exact modify_change .retry k
  | handleRedo height => exact modify_change .handleRedo k
  | gotBlock height => exact modify_change .gotBlock k
  | addBlock peerID block extCommit isPeerBanned =>
    simp only [step]
    split
    · exact .same ..
    · exact addBlock_change pool peerID block extCommit isPeerBanned k
  | noBlock height peerID => exact modify_change (redoRequestFrom_change _ · peerID) k
  | removePeer peerID => exact removePeer_change _ pool peerID k

theorem step_height (crypto : Crypto) (hs : BlockHashes) (pool : Pool) (e : PoolEvent) :
    (pool.step crypto hs e).height = pool.height := by
  cases e with
  | makeNextRequester =>
    simp only [step, makeNextRequester]
    split_ifs <;> rfl
  | addBlock peerID block extCommit isPeerBanned =>
    simp only [step]
    split
    · rfl
    · unfold addBlock
      dsimp only
      split
      · rfl
      split
      · split_ifs <;> rfl
      · split
        · split_ifs <;> rfl
        · rfl
  | removePeer => rfl
  | _ => exact modify_height ..

theorem Change.isSome {r r' : Option Requester} (h : Change pool k e r r') (hr : r.isSome) :
    r'.isSome := by
  cases h with
  | same => exact hr
  | _ => rfl

/-- A block that is new at a height is one of that height. -/
theorem Change.block {r : Option Requester} {r' : Requester} {b : FullBlock}
    (h : Change pool k e r (some r')) (hb : r'.block = some b) :
    r.bind (·.block) = some b ∨ b.header.height = k := by
  cases h with
  | same => exact .inl hb
  | new => cases hb
  | pick r peer => exact .inl ((r.pickPeerAndSendRequest_block peer).symm.trans hb)
  | retry r =>
    exact .inl ((r.onRetryTimer_block.resolve_right fun h => by simp [h.2] at hb).symm.trans hb)
  | handleRedo r =>
    exact .inl ((r.onRedo_block.resolve_right fun h => by simp [h.2] at hb).symm.trans hb)
  | gotBlock r => exact .inl (r.onGotBlock_block.symm.trans hb)
  | redo => exact .inl hb
  | @setBlock r _ _ block _ _ _ hheight hset =>
    rw [Requester.setBlock_block hset, some.injEq] at hb
    cases hold : r.block with
    | none => exact .inr (by rw [← hheight, ← hb, hold, getD_none])
    | some old => exact .inl (by rw [bind_some, hold, ← hb, hold, getD_some])

theorem moves_of_change (hheight : pool'.height = pool.height) (h : ∀ k, Change pool k e
    (pool.requesters.lookup k) (pool'.requesters.lookup k)) : Moves pool pool' := by
  refine ⟨hheight, fun k hk => ?_, fun hsorted k r' b hr' hb => ?_⟩
  · exact AList.lookup_isSome.1 ((h k).isSome (AList.lookup_isSome.2 hk))
  · rcases (hr' ▸ h k).block hb with hold | hnew
    · obtain ⟨r, hr, hblock⟩ := bind_eq_some_iff.1 hold
      exact hsorted k r b hr hblock
    · exact hnew

theorem step_moves (crypto : Crypto) (hs : BlockHashes) (pool : Pool) (e : PoolEvent) :
    Moves pool (pool.step crypto hs e) :=
  moves_of_change (step_height crypto hs pool e) (step_change crypto hs pool e)

def Steady (pool : Pool) (height : Int64) : PoolEvent → Prop
  | .retryTimer k => k = height →
      ∀ r ∈ pool.requesters.lookup height, r.block.isSome → ¬r.DropsOnRetryTimer
  | .handleRedo k => k = height →
      ∀ r ∈ pool.requesters.lookup height, r.block.isSome → ¬r.DropsOnRedo
  | _ => True

instance (pool : Pool) (height : Int64) : (e : PoolEvent) → Decidable (pool.Steady height e)
  | .retryTimer k => inferInstanceAs (Decidable (k = height →
      ∀ r ∈ pool.requesters.lookup height, r.block.isSome → ¬r.DropsOnRetryTimer))
  | .handleRedo k => inferInstanceAs (Decidable (k = height →
      ∀ r ∈ pool.requesters.lookup height, r.block.isSome → ¬r.DropsOnRedo))
  | .makeNextRequester => .isTrue trivial
  | .pickPeer .. => .isTrue trivial
  | .gotBlock _ => .isTrue trivial
  | .addBlock .. => .isTrue trivial
  | .noBlock .. => .isTrue trivial
  | .removePeer _ => .isTrue trivial

theorem add_ofNat_ne (height : Int64) {n m : ℕ} (hlt : n < m) (hm : m < 2 ^ 63) :
    height + Int64.ofNat n ≠ height + Int64.ofNat m := by
  intro heq
  have hcancel := (Int64.add_right_inj height).1 heq
  have hint := congrArg toInt hcancel
  rw [toInt_ofNat_of_lt (by omega), toInt_ofNat_of_lt (by omega)] at hint
  omega

/-- A block stays where its requester does not drop it. A new requester takes no place that is
taken. -/
theorem step_keeps {n : ℕ} (hsteady : pool.Steady (pool.height + ofNat n) e)
    (hn : n < pool.requesters.entries.length) :
    Keeps pool (pool.step crypto hs e) (pool.height + ofNat n) := by
  intro r b hr hb
  have hchange := step_change crypto hs pool e (pool.height + ofNat n)
  have hdrops := isSome_of_mem hb
  rw [hr] at hchange
  generalize (pool.step crypto hs e).requesters.lookup _ = r' at hchange ⊢
  cases hchange with
  | same => exact ⟨r, rfl, hb⟩
  | new _ hk hlt => exact absurd hk (add_ofNat_ne _ hn (hlt.trans (by decide)))
  | pick _ peer => exact ⟨_, rfl, (r.pickPeerAndSendRequest_block peer).trans hb⟩
  | retry =>
    exact ⟨_, rfl, (r.onRetryTimer_block.resolve_right fun h =>
      hsteady rfl r hr hdrops h.1).trans hb⟩
  | handleRedo =>
    exact ⟨_, rfl, (r.onRedo_block.resolve_right fun h => hsteady rfl r hr hdrops h.1).trans hb⟩
  | gotBlock => exact ⟨_, rfl, r.onGotBlock_block.trans hb⟩
  | redo => exact ⟨_, rfl, hb⟩
  | setBlock _ hset => exact ⟨_, rfl, by rw [Requester.setBlock_block hset, hb, getD_some]⟩

theorem removePeerAndRedo_moves (pool : Pool) (height : Int64) :
    Moves pool (pool.removePeerAndRedoAllPeerRequests height) ∧
      ∀ k, Keeps pool (pool.removePeerAndRedoAllPeerRequests height) k := by
  unfold removePeerAndRedoAllPeerRequests
  split
  · exact ⟨⟨rfl, fun _ h => h, id⟩, fun _ r _ hr hb => ⟨r, hr, hb⟩⟩
  · next request hrequest =>
    refine ⟨moves_of_change rfl (removePeer_change (.removePeer request.gotBlockFrom) pool _), ?_⟩
    intro k r b hr hb
    rw [removePeer, Table.lookup_mapValues, hr]
    refine ⟨_, rfl, ?_⟩
    dsimp only
    split_ifs <;> exact hb

end Steps
end Pool
end CelestiaCore.BlockSync
