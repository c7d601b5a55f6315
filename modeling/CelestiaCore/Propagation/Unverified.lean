import CelestiaCore.Keyed.Lowest

/-!
# The cache of unverified proposals

`StoreUnverifiedProposal` of `consensus/propagation/peer_state.go`.
-/
namespace CelestiaCore.Propagation
open Keyed Finset Function List

/-- `unverifiedProposals`: its heights, and the compact block of each. -/
structure UnverifiedProposals (CompactBlock : Type) where
  heights : Finset ℤ
  block : ℤ → Option CompactBlock

variable {CompactBlock : Type} (height : CompactBlock → ℤ)

def maxUnverifiedProposals : ℕ := 24

/-- `StoreUnverifiedProposal`, where `height` reads `cb.Proposal.Height`. -/
def storeUnverifiedProposal (d : UnverifiedProposals CompactBlock) (cb : CompactBlock) :
    UnverifiedProposals CompactBlock × Bool :=
  let store heights := (⟨insert (height cb) heights, update d.block (height cb) (some cb)⟩, true)
  if height cb ∈ d.heights then store d.heights
  else if d.heights.card < maxUnverifiedProposals then store d.heights
  else
    let maxHeight := d.heights.fold max (-1) id
    if height cb < maxHeight then store (d.heights.erase maxHeight) else (d, false)

def storeAll (cbs : List CompactBlock) : UnverifiedProposals CompactBlock :=
  cbs.foldl (fun d cb => (storeUnverifiedProposal height d cb).1) ⟨∅, fun _ => none⟩

variable {height} {d : UnverifiedProposals CompactBlock} {cbs : List CompactBlock}
  {cb : CompactBlock}

theorem fold_max_spec {s : Finset ℤ} (hpos : ∀ h ∈ s, 0 ≤ h) (hne : s.Nonempty) :
    s.fold max (-1) id ∈ s ∧ ∀ h ∈ s, h ≤ s.fold max (-1) id := by
  have hle : ∀ h ∈ s, h ≤ s.fold max (-1) id := fun h hh => (le_fold_max h).2 (.inr ⟨h, hh, le_rfl⟩)
  refine ⟨?_, hle⟩
  obtain ⟨h, hh⟩ := hne
  obtain hneg | ⟨m, hm, hge⟩ := (le_fold_max (s.fold max (-1) id)).1 le_rfl
  · have := hpos h hh
    have := hle h hh
    omega
  · rwa [hge.antisymm (hle m hm)]

structure Kept (height : CompactBlock → ℤ) (cbs : List CompactBlock)
    (d : UnverifiedProposals CompactBlock) : Prop where
  lowest : Lowest maxUnverifiedProposals (cbs.map height).toFinset d.heights
  last : ∀ h ∈ d.heights, d.block h = (cbs.filter (height · = h)).getLast?

theorem Kept.store (h : Kept height cbs d) {heights : Finset ℤ} (hsub : heights ⊆ d.heights)
    (hlow : Lowest maxUnverifiedProposals (insert (height cb) (cbs.map height).toFinset)
      (insert (height cb) heights)) :
    Kept height (cbs ++ [cb])
      ⟨insert (height cb) heights, update d.block (height cb) (some cb)⟩ := by
  refine ⟨by simpa using hlow, fun k hk => ?_⟩
  obtain rfl | heq := eq_or_ne k (height cb)
  · simp
  · have hlast := h.last k (hsub (mem_of_mem_insert_of_ne hk heq))
    simp [heq, heq.symm, hlast]

theorem Kept.storeUnverifiedProposal (h : Kept height cbs d) (hpos : ∀ c ∈ cbs, 0 ≤ height c)
    (cb : CompactBlock) : Kept height (cbs ++ [cb]) (storeUnverifiedProposal height d cb).1 := by
  have hheights : ∀ k ∈ d.heights, 0 ≤ k := fun k hk => by
    obtain ⟨c, hc, rfl⟩ := mem_map.1 (mem_toFinset.1 (h.lowest.subset hk))
    exact hpos c hc
  simp only [Propagation.storeUnverifiedProposal]
  split_ifs with hmem hroom hlt
  · refine h.store subset_rfl ?_
    rw [insert_eq_of_mem hmem, insert_eq_of_mem (h.lowest.subset hmem)]
    exact h.lowest
  · exact h.store subset_rfl (h.lowest.add hroom)
  all_goals
    have hfull := not_lt.1 hroom
    obtain ⟨hmax, hle⟩ := fold_max_spec hheights (card_pos.1 (hfull.trans_lt' (by decide)))
  · exact h.store (erase_subset ..) (h.lowest.replace hfull hmem hmax hle hlt)
  · have hlow := h.lowest.reject hfull hmem fun k hk => (hle k hk).trans (not_lt.1 hlt)
    refine ⟨by simpa using hlow, fun k hk => ?_⟩
    simp [h.last k hk, (ne_of_mem_of_not_mem hk hmem).symm]

theorem storeAll_lowest (cbs : List CompactBlock) (hpos : ∀ cb ∈ cbs, 0 ≤ height cb) :
    Kept height cbs (storeAll height cbs) := by
  induction cbs using List.reverseRecOn with
  | nil => exact ⟨by constructor <;> simp [storeAll], by simp [storeAll]⟩
  | append_singleton cbs cb ih =>
    rw [storeAll, foldl_concat]
    have hbefore := fun c hc => hpos c (mem_append_left _ hc)
    exact (ih hbefore).storeUnverifiedProposal hbefore cb

/-- Two proposals more than there is room for, from the highest down, and one proposed again. -/
def falling : List (ℤ × Char) := (List.range 26).map (fun n => (25 - (n : ℤ), 'a')) ++ [(3, 'b')]

theorem storeAll_lowest_falling : (∀ cb ∈ falling, 0 ≤ cb.1) ∧
    Kept Prod.fst falling (storeAll Prod.fst falling) ∧
    24 ∉ (storeAll Prod.fst falling).heights ∧ 23 ∈ (storeAll Prod.fst falling).heights :=
  ⟨by decide, storeAll_lowest _ (by decide), by decide +kernel, by decide +kernel⟩

end CelestiaCore.Propagation
