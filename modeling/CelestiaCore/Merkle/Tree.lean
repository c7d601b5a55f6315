import CelestiaCore.Merkle.Proof
import CelestiaCore.PowerSplit.Fold

/-!
# Merkle trees

`crypto/merkle/tree.go` and `proof.go`: the root of a list, by recursion or level by level, and
proofs. -/
namespace CelestiaCore.Merkle
open Wire PowerSplit List

def emptyHash (h : Digest) : Bytes := h.sum []

theorem getSplitPoint_eq {n : Nat} (hn : 2 ≤ n) : getSplitPoint n = splitPoint n := by
  have hle := Nat.log2_self_le (n := n) (by omega)
  have hlt := Nat.lt_log2_self (n := n)
  rw [pow_succ] at hlt
  unfold getSplitPoint
  simp only [Int.toNat_natCast]
  split_ifs with hk
  · have hk : 2 ^ n.log2 = n := by exact_mod_cast hk
    obtain ⟨a, ha⟩ : ∃ a, n.log2 = a + 1 := by
      refine ⟨n.log2 - 1, ?_⟩
      have : n.log2 ≠ 0 := by
        intro h0
        rw [h0] at hk
        omega
      omega
    rw [ha, pow_succ] at hk
    have hsplit : splitPoint n = 2 ^ a := splitPoint_unique (by omega) (by omega)
    rw [hsplit, ha]
    push_cast
    omega
  · have hne : 2 ^ n.log2 ≠ n := by exact_mod_cast hk
    rw [splitPoint_unique (n := n) (a := n.log2) (by omega) (by omega)]
    push_cast
    rfl

def splitIndex (items : List Bytes) : Nat := (getSplitPoint items.length).toNat

variable {items : List Bytes}

theorem splitIndex_eq (h : 2 ≤ items.length) : splitIndex items = splitPoint items.length := by
  rw [splitIndex, getSplitPoint_eq h]
  rfl

theorem length_take_splitIndex (h : 2 ≤ items.length) :
    (items.take (splitIndex items)).length < items.length := by
  have := splitPoint_lt h
  rw [length_take, splitIndex_eq h]
  omega

theorem length_drop_splitIndex (h : 2 ≤ items.length) :
    (items.drop (splitIndex items)).length < items.length := by
  have := splitPoint_pos items.length
  rw [length_drop, splitIndex_eq h]
  omega

def hashFromByteSlices (h : Digest) (items : List Bytes) : Bytes :=
  match items with
  | [] => emptyHash h
  | [item] => leafHash h item
  | a :: b :: rest =>
    let k := splitIndex (a :: b :: rest)
    let left := hashFromByteSlices h ((a :: b :: rest).take k)
    let right := hashFromByteSlices h ((a :: b :: rest).drop k)
    innerHash h left right
  termination_by items.length
  decreasing_by
  · exact length_take_splitIndex (by simp)
  · exact length_drop_splitIndex (by simp)

/-- The inner loop of `HashFromByteSlicesIterative`: the array and the write position after one
level of `size` nodes. -/
def foldLevel (h : Digest) (size : Nat) (items : List Bytes) (rp wp : Nat) : List Bytes × Nat :=
  if rp < size then
    if rp + 1 < size then
      foldLevel h size
        (items.set wp (innerHash h (items.getD rp []) (items.getD (rp + 1) []))) (rp + 2) (wp + 1)
    else foldLevel h size (items.set wp (items.getD rp [])) (rp + 1) (wp + 1)
  else (items, wp)
  termination_by size - rp

theorem foldLevel_snd (h : Digest) (size : Nat) (items : List Bytes) (rp wp : Nat) :
    (foldLevel h size items rp wp).2 = wp + (size - rp + 1) / 2 := by
  induction items, rp, wp using foldLevel.induct h size with
  | case1 items rp wp hrp hnext ih =>
    rw [foldLevel, if_pos hrp, if_pos hnext, ih]
    omega
  | case2 items rp wp hrp hnext ih =>
    rw [foldLevel, if_pos hrp, if_neg hnext, ih]
    omega
  | case3 items rp wp hrp =>
    rw [foldLevel, if_neg hrp]
    show wp = _
    omega

/-- The outer loop of `HashFromByteSlicesIterative`. -/
def foldLevels (h : Digest) (items : List Bytes) (size : Nat) : Bytes :=
  if size = 0 then emptyHash h
  else if size = 1 then items.getD 0 []
  else
    let p := foldLevel h size items 0 0
    foldLevels h p.1 p.2
  termination_by size
  decreasing_by
    rw [foldLevel_snd]
    omega

def hashFromByteSlicesIterative (h : Digest) (input : List Bytes) : Bytes :=
  foldLevels h (input.map (leafHash h)) input.length

/-- A node on the way from a leaf to the root, with the hash of its sibling. -/
structure ProofNode where
  hash : Bytes
  left : Option Bytes
  right : Option Bytes
  deriving DecidableEq, Repr

/-- `FlattenAunts` on a node followed by its ancestors. -/
def flattenAunts : List ProofNode → List Bytes
  | [] => []
  | spn :: parents =>
    match spn.left, spn.right with
    | some left, _ => left :: flattenAunts parents
    | none, some right => right :: flattenAunts parents
    | none, none => flattenAunts parents

/-- Links the root of a subtree, the last node of a trail, to a sibling and to its parent. -/
def link (sibling : ProofNode → ProofNode) (root : ProofNode) : List ProofNode → List ProofNode
  | [] => []
  | [spn] => [sibling spn, root]
  | spn :: parents => spn :: link sibling root parents

/-- The last step of the functions that build trails: a root over two subtrees. -/
def joinTrails (h : Digest) (l r : List (List ProofNode) × ProofNode) :
    List (List ProofNode) × ProofNode :=
  let root : ProofNode := ⟨innerHash h l.2.hash r.2.hash, none, none⟩
  (l.1.map (link (fun spn => { spn with right := some r.2.hash }) root) ++
    r.1.map (link (fun spn => { spn with left := some l.2.hash }) root), root)

/-- Trails from leaves whose hash is computed by `leaf`. -/
def trailsBy (h : Digest) (leaf : Bytes → Bytes) (items : List Bytes) :
    List (List ProofNode) × ProofNode :=
  match items with
  | [] => ([], ⟨emptyHash h, none, none⟩)
  | [item] => ([[⟨leaf item, none, none⟩]], ⟨leaf item, none, none⟩)
  | a :: b :: rest =>
    let k := splitIndex (a :: b :: rest)
    joinTrails h (trailsBy h leaf ((a :: b :: rest).take k))
      (trailsBy h leaf ((a :: b :: rest).drop k))
  termination_by items.length
  decreasing_by
  · exact length_take_splitIndex (by simp)
  · exact length_drop_splitIndex (by simp)

def trailsFromByteSlices (h : Digest) (items : List Bytes) : List (List ProofNode) × ProofNode :=
  trailsBy h (leafHash h) items

def trailsFromLeafHashes (h : Digest) (leafHashes : List Bytes) :
    List (List ProofNode) × ProofNode :=
  trailsBy h id leafHashes

/-- The root hash and the proofs of `total` items from their trails. -/
def proofsFromTrails (total : Nat) (t : List (List ProofNode) × ProofNode) : Bytes × List Proof :=
  (t.2.hash, t.1.zipIdx.map fun p =>
    ⟨Int64.ofNat total, Int64.ofNat p.2, (p.1.head?.map (·.hash)).getD [], flattenAunts p.1⟩)

def proofsFromByteSlices (h : Digest) (items : List Bytes) : Bytes × List Proof :=
  proofsFromTrails items.length (trailsFromByteSlices h items)

def proofsFromLeafHashes (h : Digest) (leafHashes : List Bytes) : Bytes × List Proof :=
  proofsFromTrails leafHashes.length (trailsFromLeafHashes h leafHashes)

section Root
variable (h : Digest)

def treeRoot (leafHashes : List Bytes) : Bytes := fold (emptyHash h) (innerHash h) leafHashes

theorem length_innerHash (l r : Bytes) : (innerHash h l r).length = hashSize := h.length_sum _

theorem length_leafHash (leaf : Bytes) : (leafHash h leaf).length = hashSize := h.length_sum _

theorem length_treeRoot {ls : List Bytes} (hls : ∀ l ∈ ls, l.length = hashSize) :
    (treeRoot h ls).length = hashSize := by
  match ls, hls with
  | [], _ => simp [treeRoot, emptyHash, h.length_sum]
  | [l], hls => simpa [treeRoot] using hls l
  | a :: b :: ls, _ =>
    rw [treeRoot, fold_split (by simp)]
    exact length_innerHash h _ _

theorem hashFromByteSlices_split (hlen : 2 ≤ items.length) :
    hashFromByteSlices h items = innerHash h
      (hashFromByteSlices h (items.take (splitPoint items.length)))
      (hashFromByteSlices h (items.drop (splitPoint items.length))) := by
  match items, hlen with
  | a :: b :: rest, hlen =>
    rw [hashFromByteSlices]
    simp only [splitIndex_eq hlen]

theorem hashFromByteSlices_eq (items : List Bytes) :
    hashFromByteSlices h items = treeRoot h (items.map (leafHash h)) := by
  induction items using split_induction with
  | nil => simp [hashFromByteSlices, treeRoot]
  | single => simp [hashFromByteSlices, treeRoot]
  | split items hlen ihl ihr =>
    have hmap : 2 ≤ (items.map (leafHash h)).length := by simpa using hlen
    rw [hashFromByteSlices_split h hlen, ihl, ihr, treeRoot, treeRoot, treeRoot, fold_split hmap,
      length_map, map_take, map_drop]

end Root

section Trails
variable (h : Digest) (leaf : Bytes → Bytes)

theorem trailsBy_split (hlen : 2 ≤ items.length) :
    trailsBy h leaf items = joinTrails h (trailsBy h leaf (items.take (splitPoint items.length)))
      (trailsBy h leaf (items.drop (splitPoint items.length))) := by
  match items, hlen with
  | a :: b :: rest, hlen =>
    rw [trailsBy]
    simp only [splitIndex_eq hlen]

/-- A trail ends in the root of its tree, which has no sibling. -/
def Rooted (trail : List ProofNode) : Prop := ∃ ps hash, trail = ps ++ [⟨hash, none, none⟩]

/-- What a proof takes from a trail: the leaf hash and the aunts. -/
def proofParts (trail : List ProofNode) : Bytes × List Bytes :=
  ((trail.head?.map (·.hash)).getD [], flattenAunts trail)

theorem flattenAunts_append (ps qs : List ProofNode) :
    flattenAunts (ps ++ qs) = flattenAunts ps ++ flattenAunts qs := by
  induction ps with
  | nil => rfl
  | cons p ps ih =>
    rw [cons_append, flattenAunts, flattenAunts]
    cases p.left with
    | some l => simp [ih]
    | none =>
      cases p.right with
      | some r => simp [ih]
      | none => simpa using ih

theorem link_append (sibling : ProofNode → ProofNode) (root spn : ProofNode)
    (ps : List ProofNode) : link sibling root (ps ++ [spn]) = ps ++ [sibling spn, root] := by
  induction ps with
  | nil => rfl
  | cons p ps ih =>
    obtain ⟨q, qs, hq⟩ : ∃ q qs, ps ++ [spn] = q :: qs := by
      cases ps with
      | nil => exact ⟨_, _, rfl⟩
      | cons q qs => exact ⟨_, _, rfl⟩
    rw [cons_append, hq, link, ← hq, ih, cons_append]
    simp

theorem link_spec {trail : List ProofNode} (ht : Rooted trail) (sibling : ProofNode → ProofNode)
    (aunt : Bytes) (hhash : ∀ spn, (sibling spn).hash = spn.hash)
    (haunt : ∀ hash, flattenAunts [sibling ⟨hash, none, none⟩] = [aunt]) (hash : Bytes) :
    Rooted (link sibling ⟨hash, none, none⟩ trail) ∧
      proofParts (link sibling ⟨hash, none, none⟩ trail) =
        ((proofParts trail).1, (proofParts trail).2 ++ [aunt]) := by
  obtain ⟨ps, last, rfl⟩ := ht
  rw [link_append]
  constructor
  · exact ⟨ps ++ [sibling ⟨last, none, none⟩], hash, by simp⟩
  · have hflat : flattenAunts (ps ++ [sibling ⟨last, none, none⟩, ⟨hash, none, none⟩]) =
        flattenAunts (ps ++ [⟨last, none, none⟩]) ++ [aunt] := by
      have hsplit : [sibling ⟨last, none, none⟩, ⟨hash, none, none⟩] =
          [sibling ⟨last, none, none⟩] ++ [(⟨hash, none, none⟩ : ProofNode)] := rfl
      rw [hsplit, flattenAunts_append, flattenAunts_append, haunt, flattenAunts_append]
      simp [flattenAunts]
    have hhead : (ps ++ [sibling ⟨last, none, none⟩, ⟨hash, none, none⟩]).head?.map (·.hash) =
        (ps ++ [(⟨last, none, none⟩ : ProofNode)]).head?.map (·.hash) := by
      cases ps with
      | nil => simp [hhash]
      | cons p ps => simp
    rw [proofParts, proofParts, hflat, hhead]

theorem trailsBy_spec (items : List Bytes) :
    (trailsBy h leaf items).2.hash = treeRoot h (items.map leaf) ∧
      (∀ t ∈ (trailsBy h leaf items).1, Rooted t) ∧ (trailsBy h leaf items).1.map proofParts =
        paths (emptyHash h) (innerHash h) (items.map leaf) := by
  induction items using split_induction with
  | nil => simp [trailsBy, treeRoot]
  | single x => exact ⟨by simp [trailsBy, treeRoot],
      by simpa [trailsBy] using ⟨[], leaf x, rfl⟩, by simp [trailsBy, proofParts, flattenAunts]⟩
  | split items hlen ihl ihr =>
    obtain ⟨hrootl, hrootedl, hpartsl⟩ := ihl
    obtain ⟨hrootr, hrootedr, hpartsr⟩ := ihr
    have hmap : 2 ≤ (items.map leaf).length := by simpa using hlen
    rw [map_take] at hrootl hpartsl
    rw [map_drop] at hrootr hpartsr
    rw [trailsBy_split h leaf hlen]
    set l := trailsBy h leaf (items.take (splitPoint items.length))
    set r := trailsBy h leaf (items.drop (splitPoint items.length))
    have hl := fun t ht => link_spec (hrootedl t ht)
      (fun spn => { spn with right := some r.2.hash }) r.2.hash (fun _ => rfl) (fun _ => rfl)
        (innerHash h l.2.hash r.2.hash)
    have hr := fun t ht => link_spec (hrootedr t ht)
      (fun spn => { spn with left := some l.2.hash }) l.2.hash (fun _ => rfl) (fun _ => rfl)
        (innerHash h l.2.hash r.2.hash)
    refine ⟨?_, ?_, ?_⟩
    · rw [treeRoot, fold_split hmap, length_map, ← treeRoot, ← treeRoot, ← hrootl, ← hrootr]
      rfl
    · intro t ht
      rcases mem_append.1 ht with ht | ht
      · obtain ⟨u, hu, rfl⟩ := mem_map.1 ht
        exact (hl u hu).1
      · obtain ⟨u, hu, rfl⟩ := mem_map.1 ht
        exact (hr u hu).1
    · rw [paths_split hmap, length_map, ← hpartsl, ← hpartsr, ← treeRoot, ← treeRoot, ← hrootl,
        ← hrootr]
      simp only [joinTrails, map_append, map_map]
      congr 1
      · exact map_congr_left fun t ht => (hl t ht).2
      · exact map_congr_left fun t ht => (hr t ht).2

theorem trailsBy_map (items : List Bytes) :
    trailsBy h leaf items = trailsBy h id (items.map leaf) := by
  induction items using split_induction with
  | nil => simp [trailsBy]
  | single => simp [trailsBy]
  | split items hlen ihl ihr =>
    have hmap : 2 ≤ (items.map leaf).length := by simpa using hlen
    rw [trailsBy_split h leaf hlen, trailsBy_split h id hmap, ihl, ihr, length_map,
      map_take, map_drop]

end Trails

def paddedDigest : Digest where
  sum bs := (bs ++ List.replicate hashSize 0).take hashSize
  length_sum bs := by simp

end CelestiaCore.Merkle
