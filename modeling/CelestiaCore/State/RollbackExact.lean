import CelestiaCore.State.RollbackRuns

/-!
# What a rollback restores

`Rollback` sets neither the timeouts of the state nor the version that the state began with.
-/
namespace CelestiaCore.SM
open Wire Program BlockStore List Function

/-- A run of a node: each block is saved, executed and its state saved. A header carries the
application hash and results of the block before, as `validateBlock` requires. -/
inductive Ran (crypto : Crypto) : List State → Stores → Prop where
  | genesis {g : State} {bs : DB} (h : Genesis crypto g) (hversion : g.versionBlock = blockProtocol)
      (hempty : ∀ k, bs.blockMeta k = none) : Ran crypto [g] ⟨bs, (StateStore.save g).final .empty⟩
  | next {s s' : State} {states : List State} {stores : Stores} {bs : DB} {blockID : BlockID}
      {header : Header} {response : ResponseFinalizeBlock} (hran : Ran crypto (s :: states) stores)
      (happlies : Applies crypto s blockID header response s') (happHash : header.appHash =
        s.appHash)
      (hresults : header.lastResultsHash = s.lastResultsHash)
      (hmeta : bs.blockMeta =
        Function.update stores.bs.blockMeta header.height.toInt (some ⟨blockID, header⟩))
      (hheight : bs.height = header.height.toInt) :
      Ran crypto (s' :: s :: states) ⟨bs, (StateStore.save s').final stores.ss⟩

section Ran
variable {crypto : Crypto} {s s' : State} {states : List State} {stores : Stores}

theorem Ran.saved (h : Ran crypto states stores) : Saved crypto states stores.ss := by
  induction h with
  | genesis h => exact .genesis h
  | next hran happlies happHash hresults hmeta hheight ih => exact .next ih happlies

theorem Ran.versionBlock (h : Ran crypto states stores) :
    ∀ t ∈ states, t.versionBlock = blockProtocol := by
  induction h with
  | genesis h hversion =>
    intro t ht
    rw [mem_singleton.1 ht]
    exact hversion
  | @next s₀ _ _ _ _ _ _ _ hran happlies happHash hresults hmeta hheight ih =>
    intro t ht
    rcases mem_cons.1 ht with rfl | ht'
    · obtain ⟨_, _, -, -, rfl⟩ := executed_eq_ok_iff.1 happlies.executed
      exact ih s₀ mem_cons_self
    · exact ih t ht'

theorem Ran.metas (h : Ran crypto (s :: states) stores) :
    (∀ k, k < s.initialHeight → stores.bs.blockMeta k = none) ∧
    (s.lastBlockHeight ≠ 0 → ∃ header : Header,
      stores.bs.blockMeta s.lastBlockHeight = some ⟨s.lastBlockID, header⟩ ∧
      header.height.toInt = s.lastBlockHeight ∧ header.time = s.lastBlockTime) := by
  generalize hlist : s :: states = l at h
  induction h generalizing s states with
  | genesis h hversion hempty =>
    obtain ⟨rfl, rfl⟩ := List.cons.inj hlist
    exact ⟨fun k _ => hempty k, fun hne => absurd h.lastBlockHeight hne⟩
  | @next s₀ s' states stores bs blockID header response hran happlies happHash hresults
    hmeta hheight
      ih =>
    obtain ⟨rfl, rfl⟩ := List.cons.inj hlist
    obtain ⟨hbelow, -⟩ := ih rfl
    have hs₀ := hran.saved.sound s₀ mem_cons_self
    have hle := hs₀.initial_le
    have hh := happlies.height
    obtain ⟨_, _, -, -, rfl⟩ := executed_eq_ok_iff.1 happlies.executed
    constructor
    · intro k hk
      rw [hmeta, update_of_ne (by dsimp only at hk; omega)]
      exact hbelow k hk
    · intro _
      refine ⟨header, ?_, rfl, rfl⟩
      rw [hmeta]
      exact update_self ..

theorem Ran.before (h : Ran crypto (s :: states) stores) (hne : s.lastBlockHeight ≠ 0) :
    ∃ u ∈ states, u.nextHeight = s.lastBlockHeight ∧ s.lastValidators = u.validators := by
  cases h with
  | genesis h => exact absurd h.lastBlockHeight hne
  | @next s₀ _ _ _ _ _ _ _ hran happlies =>
    have hh := happlies.height
    obtain ⟨_, _, -, -, rfl⟩ := executed_eq_ok_iff.1 happlies.executed
    exact ⟨s₀, mem_cons_self, hh.symm, rfl⟩

theorem Ran.latest (h : Ran crypto (s' :: s :: states) stores) :
    stores.bs.height = s'.lastBlockHeight ∧ s'.lastBlockHeight = s.nextHeight ∧
    stores.ss.load crypto = .ok (some s') ∧ (∃ stores₀, Ran crypto (s :: states) stores₀ ∧
      ∀ k, k ≠ s'.lastBlockHeight → stores.bs.blockMeta k = stores₀.bs.blockMeta k) ∧
    ∃ m, stores.bs.blockMeta s'.lastBlockHeight = some m ∧ m.header.appHash = s.appHash ∧
      m.header.lastResultsHash = s.lastResultsHash := by
  have hsound := h.saved.sound s' mem_cons_self
  cases h with
  | @next _ _ _ stores bs blockID header response hran happlies happHash hresults hmeta hheight =>
    have hs := hran.saved.sound s mem_cons_self
    have hh := happlies.height
    have hpos := hs.initial_pos.trans hs.initial_le
    have hlast : s'.lastBlockHeight = header.height.toInt :=
      (executed_eq_ok happlies.executed).lastBlockHeight
    refine ⟨hheight.trans hlast.symm, hlast.trans hh, ?_, ⟨stores, hran, fun k hk => ?_⟩,
      ⟨blockID, header⟩, ?_, happHash, hresults⟩
    · rw [hsound.final_save]
      exact hsound.storable.load_saved (by omega) _
    · rw [hmeta, update_of_ne (hlast ▸ hk)]
    · rw [hmeta, hlast, update_self]

theorem Ran.rolled (h : Ran crypto (s' :: s :: states) stores) (hne : s.lastBlockHeight ≠ 0) :
    ∃ (prev latest : BlockMeta) (vals : CachedValidatorSet), Rolled crypto stores s'
        (rolledBackState s' s.lastBlockHeight prev latest vals s.consensusParams) ∧
      prev.blockID = s.lastBlockID ∧ prev.header.height.toInt = s.lastBlockHeight ∧
      prev.header.time = s.lastBlockTime ∧ latest.header.appHash = s.appHash ∧
      latest.header.lastResultsHash = s.lastResultsHash ∧
      identities vals = identities s.lastValidators := by
  have hs := h.saved.sound s (mem_cons_of_mem _ mem_cons_self)
  obtain ⟨g, hl, hrec⟩ := h.saved.recorded
  obtain ⟨-, hlast, hloads, ⟨stores₀, hran, hothers⟩, latest, hlatest, happ, hres⟩ := h.latest
  have hpos := hs.lastBlockHeight
  have hnext : s.nextHeight = s.lastBlockHeight + 1 := by
    rw [State.nextHeight, if_neg (by omega)]
  have hheight : s'.lastBlockHeight - 1 = s.lastBlockHeight := by omega
  obtain ⟨header, hprev, hph, hpt⟩ := hran.metas.2 hne
  rw [← hothers s.lastBlockHeight (by omega)] at hprev
  obtain ⟨u, hu, hunext, hulast⟩ := hran.before hne
  obtain ⟨vals, hload, hids⟩ := hl.loadValidators_current hrec
    (mem_cons_of_mem _ (mem_cons_of_mem _ hu))
  have hparams := hl.loadConsensusParams_eq hrec (mem_cons_of_mem _ mem_cons_self)
  rw [hunext] at hload
  rw [hnext] at hparams
  rw [← hheight] at hprev hload hparams
  have hrolled := rolled_of_reads hloads (by omega) hprev
    (hph.trans hheight.symm) hlatest hload hparams
  rw [hheight] at hrolled
  exact ⟨⟨s.lastBlockID, header⟩, latest, vals, hrolled, rfl, hph, hpt, happ, hres,
    hids.trans (by rw [hulast])⟩

end Ran

section Exact
variable {crypto : Crypto} {s s' : State} {blockID : BlockID} {header : Header}
  {response : ResponseFinalizeBlock}

end Exact

end CelestiaCore.SM
