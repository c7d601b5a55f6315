import CelestiaCore.Merkle.Tree

/-!
# The implementations of the Merkle tree agree

`crypto/merkle/parallel_tree.go` next to the recursive and the iterative version.
-/
namespace CelestiaCore.Merkle
open Wire PowerSplit List Option

def minItemsForParallel : Nat := 8
def minItemsForSmallLeaves : Nat := 32
def minLeafSizeForParallel : Nat := 1024
def minTreeSizeForParallelBuild : Nat := 16
def leafSizeEstimateSampleSize : Nat := 5

/-- The workers of `computeLeafHashesParallel`: the indices in the channel, the index each worker
holds, and the array they write to. -/
structure LeafPool where
  work : List Nat
  held : List (Option Nat)
  leafHashes : List Bytes
  deriving DecidableEq, Repr

namespace LeafPool

def start (numWorkers : Nat) (items : List Bytes) : LeafPool :=
  ⟨range items.length, replicate numWorkers none, replicate items.length []⟩

/-- A worker takes an index from the channel, or writes the hash of the item it holds. -/
inductive Step (h : Digest) (items : List Bytes) : LeafPool → LeafPool → Prop
  | take {s : LeafPool} {i idx : Nat} {rest : List Nat} (hidle : s.held[i]? = some none)
    (hwork : s.work = idx :: rest) :
    Step h items s { s with work := rest, held := s.held.set i (some idx) }
  | write {s : LeafPool} {i idx : Nat} (hheld : s.held[i]? = some (some idx)) :
    Step h items s { s with
      held := s.held.set i none
      leafHashes := s.leafHashes.set idx (leafHash h (items.getD idx [])) }

def Finished (s : LeafPool) : Prop := s.work = [] ∧ ∀ w ∈ s.held, w = none

end LeafPool

/-- The outcomes of `computeLeafHashesParallel`, over every order of the workers' steps. -/
def ComputesLeafHashes (h : Digest) (numWorkers : Nat) (items leafHashes : List Bytes) : Prop :=
  ∃ s, Relation.ReflTransGen (LeafPool.Step h items) (.start numWorkers items) s ∧ s.Finished ∧
    s.leafHashes = leafHashes

/-- `buildBalancedTree`; the two goroutines of a split write to variables of their own. -/
def buildBalancedTree (h : Digest) (hashes : List Bytes) (maxWorkers : Nat) : Bytes :=
  match hashes with
  | [] => emptyHash h
  | [a] => a
  | [a, b] => innerHash h a b
  | a :: b :: c :: rest =>
    let k := splitIndex (a :: b :: c :: rest)
    let workers := if minTreeSizeForParallelBuild ≤ (a :: b :: c :: rest).length ∧ 1 < maxWorkers
      then maxWorkers / 2 else 1
    innerHash h (buildBalancedTree h ((a :: b :: c :: rest).take k) workers)
      (buildBalancedTree h ((a :: b :: c :: rest).drop k) workers)
  termination_by hashes.length
  decreasing_by
  · exact length_take_splitIndex (by simp)
  · exact length_drop_splitIndex (by simp)

def estimateAverageLeafSize (items : List Bytes) : Nat :=
  if items.length = 0 then 0
  else
    let sampleSize := min items.length leafSizeEstimateSampleSize
    ((items.take sampleSize).map length).sum / sampleSize

/-- When `parallelHash` and the parallel proofs hash leaves in parallel. -/
def shouldUseParallelProofs (items : List Bytes) : Bool :=
  if items.length < minItemsForParallel then false
  else minLeafSizeForParallel ≤ estimateAverageLeafSize items ∨
    minItemsForSmallLeaves ≤ items.length

/-- `parallelHash`, with the leaf hashes its pool computes. -/
def parallelHash (h : Digest) (numWorkers : Nat) (items leafHashes : List Bytes) : Bytes :=
  if shouldUseParallelProofs items then buildBalancedTree h leafHashes numWorkers
  else hashFromByteSlices h items

def parallelHashFromByteSlices (h : Digest) (numWorkers : Nat) (items leafHashes : List Bytes) :
    Bytes :=
  match items with
  | [] => emptyHash h
  | [a] => leafHash h a
  | [a, b] => innerHash h (leafHash h a) (leafHash h b)
  | items => parallelHash h numWorkers items leafHashes

def trailsFromLeafHashesParallel (h : Digest) (leafHashes : List Bytes) (maxWorkers : Nat) :
    List (List ProofNode) × ProofNode :=
  match leafHashes with
  | [] => ([], ⟨emptyHash h, none, none⟩)
  | [a] => ([[⟨a, none, none⟩]], ⟨a, none, none⟩)
  | a :: b :: rest =>
    let k := splitIndex (a :: b :: rest)
    let workers := if minTreeSizeForParallelBuild ≤ (a :: b :: rest).length ∧ 1 < maxWorkers
      then maxWorkers / 2 else 1
    joinTrails h (trailsFromLeafHashesParallel h ((a :: b :: rest).take k) workers)
      (trailsFromLeafHashesParallel h ((a :: b :: rest).drop k) workers)
  termination_by leafHashes.length
  decreasing_by
  · exact length_take_splitIndex (by simp)
  · exact length_drop_splitIndex (by simp)

/-- `ParallelProofsFromByteSlices`, with the leaf hashes its pool computes. -/
def parallelProofsFromByteSlices (h : Digest) (numWorkers : Nat) (items leafHashes : List Bytes) :
    Bytes × List Proof :=
  if items.length = 0 then (emptyHash h, [])
  else if shouldUseParallelProofs items then
    proofsFromTrails items.length (trailsFromLeafHashesParallel h leafHashes numWorkers)
  else proofsFromByteSlices h items

def shouldUseParallelProofsFromLeafHashes (leafHashes : List Bytes) : Bool :=
  if leafHashes.length < minItemsForParallel then false
  else minItemsForSmallLeaves ≤ leafHashes.length

def parallelProofsFromLeafHashes (h : Digest) (numWorkers : Nat) (leafHashes : List Bytes) :
    Bytes × List Proof :=
  if leafHashes.length = 0 then (emptyHash h, [])
  else if shouldUseParallelProofsFromLeafHashes leafHashes then
    proofsFromTrails leafHashes.length (trailsFromLeafHashesParallel h leafHashes numWorkers)
  else proofsFromLeafHashes h leafHashes

section Iterative
variable (h : Digest)

theorem drop_eq_cons {l : List Bytes} {i : Nat} (hi : i < l.length) :
    l.drop i = l.getD i [] :: l.drop (i + 1) := by
  rw [drop_eq_getElem_cons hi, getD_eq_getElem?_getD, getElem?_eq_getElem hi]
  rfl

theorem drop_take_set {l : List Bytes} {x : Bytes} {wp rp size : Nat} (hw : wp < rp) :
    ((l.set wp x).take size).drop rp = (l.take size).drop rp := by
  apply ext_getElem?
  intro i
  rw [getElem?_drop, getElem?_drop, getElem?_take, getElem?_take, getElem?_set_ne (by omega)]

theorem take_set {l : List Bytes} {x : Bytes} {wp : Nat} (hw : wp < l.length) :
    (l.set wp x).take (wp + 1) = l.take wp ++ [x] := by
  rw [take_add_one, getElem?_set_self hw, take_set_of_le (le_refl wp)]
  rfl

theorem foldLevel_spec (size : Nat) (items : List Bytes) (rp wp : Nat) (hwp : wp ≤ rp)
    (hrp : rp ≤ size) (hsize : size ≤ items.length) :
    (foldLevel h size items rp wp).1.length = items.length ∧
      (foldLevel h size items rp wp).1.take (foldLevel h size items rp wp).2 =
        items.take wp ++ pairUp (innerHash h) ((items.take size).drop rp) := by
  induction items, rp, wp using foldLevel.induct h size with
  | case1 items rp wp hlt hnext ih =>
    rw [foldLevel, if_pos hlt, if_pos hnext]
    obtain ⟨hlen, htake⟩ := ih (by omega) (by omega) (by simpa using hsize)
    refine ⟨by simpa using hlen, ?_⟩
    have hget : ∀ i, i < size → (items.take size).getD i [] = items.getD i [] := by
      intro i hi
      rw [getD_eq_getElem?_getD, getD_eq_getElem?_getD, getElem?_take_of_lt hi]
    have hread : (items.take size).drop rp = items.getD rp [] :: items.getD (rp + 1) [] ::
        (items.take size).drop (rp + 2) := by
      rw [drop_eq_cons (by simp; omega), drop_eq_cons (by simp; omega), hget _ hlt, hget _ hnext]
    rw [htake, take_set (by omega), drop_take_set (by omega), hread, pairUp, append_assoc]
    rfl
  | case2 items rp wp hlt hnext ih =>
    rw [foldLevel, if_pos hlt, if_neg hnext]
    obtain ⟨hlen, htake⟩ := ih (by omega) (by omega) (by simpa using hsize)
    refine ⟨by simpa using hlen, ?_⟩
    have hend : (items.take size).drop (rp + 1) = [] := by
      rw [drop_eq_nil_iff, length_take]
      omega
    have hread : (items.take size).drop rp = [items.getD rp []] := by
      rw [drop_eq_cons (by simp; omega), hend, getD_eq_getElem?_getD,
        getElem?_take_of_lt hlt, ← getD_eq_getElem?_getD]
    rw [htake, take_set (by omega), drop_take_set (by omega), hread, hend]
    simp [pairUp]
  | case3 items rp wp hlt =>
    rw [foldLevel, if_neg hlt]
    have hend : (items.take size).drop rp = [] := by
      rw [drop_eq_nil_iff, length_take]
      omega
    refine ⟨rfl, ?_⟩
    rw [hend]
    simp [pairUp]

theorem foldLevels_eq (items : List Bytes) (size : Nat) (hsize : size ≤ items.length) :
    foldLevels h items size = treeRoot h (items.take size) := by
  induction size using Nat.strong_induction_on generalizing items with
  | _ size ih =>
    rw [foldLevels]
    split_ifs with h0 h1
    · simp [h0, treeRoot]
    · have hlt : 0 < items.length := by omega
      have hone : items.take size = [items.getD 0 []] := by
        rw [h1, ← drop_zero (l := items), drop_eq_cons hlt]
        rfl
      rw [hone, treeRoot, fold_single]
    · obtain ⟨hlen, htake⟩ := foldLevel_spec h size items 0 0 le_rfl (by omega) hsize
      have hsnd := foldLevel_snd h size items 0 0
      dsimp only
      rw [ih _ (by omega) _ (by omega), htake]
      simp only [take_zero, nil_append, drop_zero]
      exact fold_pairUp _

theorem hashFromByteSlicesIterative_eq (items : List Bytes) :
    hashFromByteSlicesIterative h items = hashFromByteSlices h items := by
  rw [hashFromByteSlicesIterative, foldLevels_eq h _ _ (by simp), hashFromByteSlices_eq,
    take_of_length_le (by simp)]

end Iterative

section Pool
variable {h : Digest} {items : List Bytes} {s s' : LeafPool} {numWorkers : Nat}

namespace LeafPool

/-- Every index is in the channel, held by a worker, or written. -/
structure Inv (h : Digest) (items : List Bytes) (s : LeafPool) : Prop where
  length_eq : s.leafHashes.length = items.length
  covered : ∀ idx item, items[idx]? = some item →
    idx ∈ s.work ∨ some idx ∈ s.held ∨ s.leafHashes[idx]? = some (leafHash h item)

theorem inv_start (h : Digest) (numWorkers : Nat) (items : List Bytes) :
    (start numWorkers items).Inv h items := by
  refine ⟨by simp [start], fun idx item hitem => .inl ?_⟩
  exact mem_range.2 (List.getElem?_eq_some_iff.1 hitem).1

theorem mem_set_of_ne {α : Type} {l : List α} {i : Nat} {a b c : α} (hmem : b ∈ l)
    (hi : l[i]? = some c) (hne : b ≠ c) : b ∈ l.set i a := by
  obtain ⟨j, hj⟩ := getElem?_of_mem hmem
  have hij : i ≠ j := by
    rintro rfl
    exact hne (some.inj (hj.symm.trans hi))
  exact mem_of_getElem? ((getElem?_set_ne hij).trans hj)

theorem Inv.step (hs : s.Inv h items) (hstep : Step h items s s') : s'.Inv h items := by
  cases hstep with
  | @take i idx rest hidle hwork =>
    refine ⟨hs.length_eq, fun j item hitem => ?_⟩
    rcases hs.covered j item hitem with hj | hj | hj
    · rw [hwork] at hj
      rcases mem_cons.1 hj with rfl | hj
      · exact .inr (.inl (mem_of_getElem?
          (List.getElem?_set_self (List.getElem?_eq_some_iff.1 hidle).1)))
      · exact .inl hj
    · exact .inr (.inl (mem_set_of_ne hj hidle (by simp)))
    · exact .inr (.inr hj)
  | @write i idx hheld =>
    refine ⟨by simpa using hs.length_eq, fun j item hitem => ?_⟩
    have hlt : j < s.leafHashes.length := by
      rw [hs.length_eq]
      exact (List.getElem?_eq_some_iff.1 hitem).1
    by_cases hj : idx = j
    · subst hj
      refine .inr (.inr ?_)
      show (s.leafHashes.set idx _)[idx]? = _
      rw [getElem?_set_self hlt, getD_eq_getElem?_getD, hitem]
      rfl
    · rcases hs.covered j item hitem with hw | hw | hw
      · exact .inl hw
      · exact .inr (.inl (mem_set_of_ne hw hheld (by simpa using Ne.symm hj)))
      · exact .inr (.inr ((getElem?_set_ne hj).trans hw))

theorem Inv.finished (hs : s.Inv h items) (hfin : s.Finished) :
    s.leafHashes = items.map (leafHash h) := by
  apply ext_getElem?
  intro idx
  rw [getElem?_map]
  cases hitem : items[idx]? with
  | none =>
    rw [getElem?_eq_none_iff] at hitem
    rw [map_none, getElem?_eq_none_iff, hs.length_eq]
    exact hitem
  | some item =>
    rcases hs.covered idx item hitem with hj | hj | hj
    · rw [hfin.1] at hj
      cases hj
    · cases hfin.2 _ hj
    · exact hj

/-- What the workers still have to do: a take and a write for each index. -/
def todo (s : LeafPool) : Nat := 2 * s.work.length + s.held.countP (·.isSome)

theorem Step.todo (hstep : Step h items s s') : s'.todo + 1 = s.todo := by
  cases hstep with
  | @take i idx rest hidle hwork =>
    obtain ⟨hi, hget⟩ := List.getElem?_eq_some_iff.1 hidle
    have := countP_set (p := fun w : Option Nat => w.isSome) (a := some idx) hi
    simp only [LeafPool.todo, hwork, length_cons, hget, isSome_none] at *
    simp at this
    omega
  | @write i idx hheld =>
    obtain ⟨hi, hget⟩ := List.getElem?_eq_some_iff.1 hheld
    have := countP_set (p := fun w : Option Nat => w.isSome) (a := none) hi
    have hpos : 0 < s.held.countP (·.isSome) :=
      countP_pos_iff.2 ⟨_, mem_of_getElem? hheld, rfl⟩
    simp only [LeafPool.todo, hget, isSome_some] at *
    simp at this
    omega

theorem Step.length_held (hstep : Step h items s s') : s'.held.length = s.held.length := by
  cases hstep <;> simp

variable (h items) in
theorem finished_or_step (hworkers : 0 < s.held.length) : s.Finished ∨ ∃ s', Step h items s s' := by
  by_cases hheld : ∀ w ∈ s.held, w = none
  · cases hwork : s.work with
    | nil => exact .inl ⟨hwork, hheld⟩
    | cons idx rest =>
      have hidle : s.held[0]? = some none := by
        rw [getElem?_eq_getElem hworkers, hheld _ (getElem_mem hworkers)]
      exact .inr ⟨_, .take hidle hwork⟩
  · push Not at hheld
    obtain ⟨w, hw, hne⟩ := hheld
    obtain ⟨idx, rfl⟩ := ne_none_iff_exists'.1 hne
    obtain ⟨i, hi⟩ := getElem?_of_mem hw
    exact .inr ⟨_, .write hi⟩

theorem exists_finished (hworkers : 0 < s.held.length) :
    ∃ s', Relation.ReflTransGen (Step h items) s s' ∧ s'.Finished := by
  induction hn : s.todo using Nat.strong_induction_on generalizing s with
  | _ n ih =>
    rcases finished_or_step h items hworkers with hfin | ⟨s₁, hstep⟩
    · exact ⟨s, .refl, hfin⟩
    · obtain ⟨s', hrun, hfin⟩ := ih s₁.todo (by have := hstep.todo; omega)
        (hstep.length_held ▸ hworkers) rfl
      exact ⟨s', .head hstep hrun, hfin⟩

end LeafPool

theorem ComputesLeafHashes.eq {leafHashes : List Bytes}
    (hc : ComputesLeafHashes h numWorkers items leafHashes) :
    leafHashes = items.map (leafHash h) := by
  obtain ⟨s, hrun, hfin, rfl⟩ := hc
  have hinv : s.Inv h items := by
    clear hfin
    induction hrun with
    | refl => exact LeafPool.inv_start h numWorkers items
    | tail _ hstep ih => exact ih.step hstep
  exact hinv.finished hfin

end Pool

section Goroutines
variable (h : Digest)

theorem buildBalancedTree_eq (hashes : List Bytes) (maxWorkers : Nat) :
    buildBalancedTree h hashes maxWorkers = treeRoot h hashes := by
  induction hashes using split_induction generalizing maxWorkers with
  | nil => simp [buildBalancedTree, treeRoot]
  | single => simp [buildBalancedTree, treeRoot]
  | split hashes hlen ihl ihr =>
    have hroot : treeRoot h hashes =
      innerHash h (treeRoot h (hashes.take (splitPoint hashes.length)))
        (treeRoot h (hashes.drop (splitPoint hashes.length))) := fold_split hlen
    rcases hashes with _ | ⟨a, _ | ⟨b, _ | ⟨c, rest⟩⟩⟩
    · simp at hlen
    · simp at hlen
    · have hone : splitPoint [a, b].length = 1 := splitPoint_unique (a := 0) (by simp) (by simp)
      rw [hroot, hone, buildBalancedTree]
      simp [treeRoot]
    · rw [buildBalancedTree, hroot]
      simp only [splitIndex_eq hlen, ihl, ihr]

theorem trailsFromLeafHashesParallel_eq (leafHashes : List Bytes) (maxWorkers : Nat) :
    trailsFromLeafHashesParallel h leafHashes maxWorkers = trailsFromLeafHashes h leafHashes := by
  induction leafHashes using split_induction generalizing maxWorkers with
  | nil => simp [trailsFromLeafHashesParallel, trailsFromLeafHashes, trailsBy]
  | single => simp [trailsFromLeafHashesParallel, trailsFromLeafHashes, trailsBy]
  | split leafHashes hlen ihl ihr =>
    rw [trailsFromLeafHashes, trailsBy_split h id hlen]
    rcases leafHashes with _ | ⟨a, _ | ⟨b, rest⟩⟩
    · simp at hlen
    · simp at hlen
    · rw [trailsFromLeafHashesParallel]
      simp only [splitIndex_eq hlen, ihl, ihr]
      rfl

theorem parallelHashFromByteSlices_eq (numWorkers : Nat) (items : List Bytes) :
    parallelHashFromByteSlices h numWorkers items (items.map (leafHash h)) =
      hashFromByteSlices h items := by
  have hlarge : parallelHash h numWorkers items (items.map (leafHash h)) =
      hashFromByteSlices h items := by
    rw [parallelHash, buildBalancedTree_eq, ← hashFromByteSlices_eq, ite_self]
  match items with
  | [] => simp [parallelHashFromByteSlices, hashFromByteSlices]
  | [a] => simp [parallelHashFromByteSlices, hashFromByteSlices]
  | [a, b] =>
    have hone : splitPoint [a, b].length = 1 := splitPoint_unique (a := 0) (by simp) (by simp)
    have hsplit := hashFromByteSlices_split h (show 2 ≤ [a, b].length by simp)
    rw [hsplit, hone]
    simp [parallelHashFromByteSlices, hashFromByteSlices]
  | a :: b :: c :: rest => exact hlarge

theorem proofsFromLeafHashes_map (items : List Bytes) :
    proofsFromLeafHashes h (items.map (leafHash h)) = proofsFromByteSlices h items := by
  rw [proofsFromLeafHashes, proofsFromByteSlices, trailsFromByteSlices, trailsBy_map, length_map]
  rfl

theorem proofsFromByteSlices_nil : proofsFromByteSlices h [] = (emptyHash h, []) := by
  simp [proofsFromByteSlices, proofsFromTrails, trailsFromByteSlices, trailsBy]

theorem parallelProofsFromByteSlices_eq (numWorkers : Nat) (items : List Bytes) :
    parallelProofsFromByteSlices h numWorkers items (items.map (leafHash h)) =
      proofsFromByteSlices h items := by
  rw [parallelProofsFromByteSlices, trailsFromLeafHashesParallel_eq]
  split_ifs with hnil hpar
  · rw [eq_nil_of_length_eq_zero hnil, proofsFromByteSlices_nil]
  · have := proofsFromLeafHashes_map h items
    rwa [proofsFromLeafHashes, length_map] at this
  · rfl

theorem parallelProofsFromLeafHashes_eq (numWorkers : Nat) (items : List Bytes) :
    parallelProofsFromLeafHashes h numWorkers (items.map (leafHash h)) =
      proofsFromByteSlices h items := by
  rw [parallelProofsFromLeafHashes, trailsFromLeafHashesParallel_eq, ← proofsFromLeafHashes_map]
  split_ifs with hnil
  · rw [eq_nil_of_length_eq_zero hnil, proofsFromLeafHashes]
    simp [proofsFromTrails, trailsFromLeafHashes, trailsBy]
  · rfl
  · rfl

end Goroutines

/-- All implementations return the same root and proofs, for every number of workers and order of
their steps; a pool with a worker always gets to its end. -/
theorem implementations_agree (h : Digest) (items : List Bytes)
    (numWorkers : Nat) : hashFromByteSlicesIterative h items = hashFromByteSlices h items ∧
    (∀ leafHashes, ComputesLeafHashes h numWorkers items leafHashes →
      parallelHashFromByteSlices h numWorkers items leafHashes = hashFromByteSlices h items ∧
      parallelProofsFromByteSlices h numWorkers items leafHashes = proofsFromByteSlices h items) ∧
    parallelProofsFromLeafHashes h numWorkers (items.map (leafHash h)) =
      proofsFromByteSlices h items ∧ (0 < numWorkers → ∀ s,
      Relation.ReflTransGen (LeafPool.Step h items) (.start numWorkers items) s →
        ∃ s', Relation.ReflTransGen (LeafPool.Step h items) s s' ∧ s'.Finished) := by
  refine ⟨hashFromByteSlicesIterative_eq h items, fun leafHashes hc => ?_,
    parallelProofsFromLeafHashes_eq h numWorkers items, fun hpos s hrun => ?_⟩
  · rw [hc.eq]
    exact ⟨parallelHashFromByteSlices_eq h numWorkers items,
      parallelProofsFromByteSlices_eq h numWorkers items⟩
  · refine LeafPool.exists_finished ?_
    induction hrun with
    | refl => simpa [LeafPool.start] using hpos
    | tail _ hstep ih => exact hstep.length_held ▸ ih

theorem implementations_agree_three :
    ∃ leafHashes, ComputesLeafHashes paddedDigest 2 [[7], [8], [9]] leafHashes ∧
      parallelHashFromByteSlices paddedDigest 2 [[7], [8], [9]] leafHashes =
        hashFromByteSlices paddedDigest [[7], [8], [9]] := by
  obtain ⟨-, hparallel, -, hend⟩ := implementations_agree paddedDigest [[7], [8], [9]] 2
  obtain ⟨s, hrun, hfin⟩ := hend (by decide) _ .refl
  exact ⟨s.leafHashes, ⟨s, hrun, hfin, rfl⟩, (hparallel _ ⟨s, hrun, hfin, rfl⟩).1⟩

end CelestiaCore.Merkle
