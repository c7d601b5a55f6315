import CelestiaCore.Merkle.Tree

/-!
# Inclusion proofs are complete and sound

A proof that verifies names an item of the list, unless two of the strings that are hashed collide.
-/
namespace CelestiaCore.Merkle
open Wire PowerSplit List Option Int64

/-- No string of the first list has the digest of a different one of the second. -/
def NoCollision (h : Digest) (as bs : List Bytes) : Prop :=
  ∀ a ∈ as, ∀ b ∈ bs, h.sum a = h.sum b → a = b

instance (h : Digest) (as bs : List Bytes) : Decidable (NoCollision h as bs) :=
  inferInstanceAs (Decidable (∀ a ∈ as, ∀ b ∈ bs, h.sum a = h.sum b → a = b))

def innerInputs (h : Digest) (ls : List Bytes) : List Bytes :=
  match ls with
  | [] => []
  | [_] => []
  | a :: b :: rest =>
    let k := splitIndex (a :: b :: rest)
    let left := (a :: b :: rest).take k
    let right := (a :: b :: rest).drop k
    (1 :: (treeRoot h left ++ treeRoot h right)) :: (innerInputs h left ++ innerInputs h right)
  termination_by ls.length
  decreasing_by
  · exact length_take_splitIndex (by simp)
  · exact length_drop_splitIndex (by simp)

def treeInputs (h : Digest) (items : List Bytes) : List Bytes :=
  items.map (0 :: ·) ++ innerInputs h (items.map (leafHash h))

/-- The strings that `computeHashFromAunts` hashes. -/
def auntInputs (h : Digest) (leaf : Bytes) : Int → Int → List Bytes → List Bytes
  | _, _, [] => []
  | index, total, aunt :: aunts =>
    let numLeft := getSplitPoint total
    if index < numLeft then
      match computeHashFromAuntsRev h leaf index numLeft aunts with
      | .ok left => (1 :: (left ++ aunt)) :: auntInputs h leaf index numLeft aunts
      | .error _ => []
    else
      match computeHashFromAuntsRev h leaf (index - numLeft) (total - numLeft) aunts with
      | .ok right =>
        (1 :: (aunt ++ right)) :: auntInputs h leaf (index - numLeft) (total - numLeft) aunts
      | .error _ => []

/-- The strings that `Verify` hashes. -/
def Proof.inputs (h : Digest) (sp : Proof) (leaf : Bytes) : List Bytes :=
  (0 :: leaf) :: auntInputs h sp.leafHash sp.index.toInt sp.total.toInt sp.aunts.reverse

section Compute
variable {h : Digest} {leaf root aunt : Bytes} {index total : Int} {aunts ls : List Bytes}

theorem innerInputs_split (hlen : 2 ≤ ls.length) : innerInputs h ls =
    (1 :: (treeRoot h (ls.take (splitPoint ls.length)) ++
      treeRoot h (ls.drop (splitPoint ls.length)))) ::
      (innerInputs h (ls.take (splitPoint ls.length)) ++
        innerInputs h (ls.drop (splitPoint ls.length))) := by
  match ls, hlen with
  | a :: b :: rest, hlen =>
    rw [innerInputs]
    simp only [splitIndex_eq hlen]

theorem treeRoot_split (hlen : 2 ≤ ls.length) : treeRoot h ls =
    innerHash h (treeRoot h (ls.take (splitPoint ls.length)))
      (treeRoot h (ls.drop (splitPoint ls.length))) :=
  fold_split hlen

theorem computeHashFromAuntsRev_eq_ok
    (hok : computeHashFromAuntsRev h leaf index total aunts = .ok root) :
    (0 ≤ index ∧ index < total) ∧ ((total = 1 ∧ aunts = [] ∧ root = leaf) ∨
        ∃ aunt rest, aunts = aunt :: rest ∧ 2 ≤ total ∧ ((index < getSplitPoint total ∧ ∃ left,
              computeHashFromAuntsRev h leaf index (getSplitPoint total) rest = .ok left ∧
              root = innerHash h left aunt ∧
              auntInputs h leaf index total aunts = (1 :: (left ++ aunt)) ::
                auntInputs h leaf index (getSplitPoint total) rest) ∨
            (getSplitPoint total ≤ index ∧ ∃ right,
              computeHashFromAuntsRev h leaf (index - getSplitPoint total)
                (total - getSplitPoint total) rest = .ok right ∧ root = innerHash h aunt right ∧
              auntInputs h leaf index total aunts = (1 :: (aunt ++ right)) ::
                auntInputs h leaf (index - getSplitPoint total) (total - getSplitPoint total)
                  rest))) := by
  cases aunts with
  | nil =>
    rw [computeHashFromAuntsRev] at hok
    split_ifs at hok with hbad hone
    cases hok
    exact ⟨by omega, Or.inl ⟨hone, rfl, rfl⟩⟩
  | cons aunt rest =>
    rw [computeHashFromAuntsRev] at hok
    split_ifs at hok with hbad hone
    refine ⟨by omega, Or.inr ⟨aunt, rest, rfl, by omega, ?_⟩⟩
    dsimp only at hok
    by_cases hlt : index < getSplitPoint total
    · rw [if_pos hlt] at hok
      obtain ⟨left, hrec, hok⟩ := except_bind_eq_ok.1 hok
      refine Or.inl ⟨hlt, left, hrec, (Except.ok.inj hok).symm, ?_⟩
      simp only [auntInputs, if_pos hlt, hrec]
    · rw [if_neg hlt] at hok
      obtain ⟨right, hrec, hok⟩ := except_bind_eq_ok.1 hok
      refine Or.inr ⟨not_lt.1 hlt, right, hrec, (Except.ok.inj hok).symm, ?_⟩
      simp only [auntInputs, if_neg hlt, hrec]

theorem length_of_computeHashFromAuntsRev (hleaf : leaf.length = hashSize)
    (hok : computeHashFromAuntsRev h leaf index total aunts = .ok root) :
    root.length = hashSize := by
  obtain ⟨-, ⟨-, -, rfl⟩ | ⟨aunt, rest, -, -, ⟨-, left, -, rfl, -⟩ | ⟨-, right, -, rfl, -⟩⟩⟩ :=
    computeHashFromAuntsRev_eq_ok hok
  · exact hleaf
  · exact length_innerHash h _ _
  · exact length_innerHash h _ _

theorem computeHashFromAuntsRev_cons (hindex : 0 ≤ index) (hlt : index < total)
    (htotal : 2 ≤ total) :
    computeHashFromAuntsRev h leaf index total (aunt :: aunts) =
      if index < getSplitPoint total then
        (computeHashFromAuntsRev h leaf index (getSplitPoint total) aunts).map
          (innerHash h · aunt)
      else
        (computeHashFromAuntsRev h leaf (index - getSplitPoint total)
          (total - getSplitPoint total) aunts).map (innerHash h aunt ·) := by
  rw [computeHashFromAuntsRev, if_neg (by omega), if_neg (by omega)]
  dsimp only
  split_ifs
  · cases computeHashFromAuntsRev h leaf index (getSplitPoint total) aunts <;> rfl
  · cases computeHashFromAuntsRev h leaf (index - getSplitPoint total)
      (total - getSplitPoint total) aunts <;> rfl

theorem computeHashFromAuntsRev_paths (ls : List Bytes) (i : Nat) (p : Bytes × List Bytes)
    (hp : (paths (emptyHash h) (innerHash h) ls)[i]? = some p) :
    computeHashFromAuntsRev h p.1 i ls.length p.2.reverse = .ok (treeRoot h ls) := by
  induction ls using split_induction generalizing i p with
  | nil => simp at hp
  | single x =>
    rw [paths_single] at hp
    obtain ⟨rfl, rfl⟩ : i = 0 ∧ p = (x, []) := by
      cases i with
      | zero => exact ⟨rfl, (some.inj hp).symm⟩
      | succ i => simp at hp
    simp [computeHashFromAuntsRev, treeRoot]
  | split ls hlen ihl ihr =>
    set k := splitPoint ls.length with hk
    have hlt : k < ls.length := splitPoint_lt hlen
    have hsplit : getSplitPoint ls.length = k := getSplitPoint_eq hlen
    have htake : (ls.take k).length = k := by
      rw [length_take]
      omega
    have hnum : ∀ l : List Bytes, (paths (emptyHash h) (innerHash h) l).length = l.length := by
      intro l
      have := congrArg length (map_fst_paths (e := emptyHash h) (f := innerHash h) l)
      simpa using this
    have hi : i < ls.length := by
      rw [← hnum ls]
      exact (List.getElem?_eq_some_iff.1 hp).1
    rw [treeRoot_split hlen, ← hk]
    rw [paths_split hlen, ← hk] at hp
    by_cases hik : i < k
    · rw [getElem?_append_left (by simpa [hnum, htake] using hik), getElem?_map,
        map_eq_some_iff] at hp
      obtain ⟨q, hq, rfl⟩ := hp
      have hrec := ihl i q hq
      rw [htake] at hrec
      rw [reverse_append, reverse_singleton, singleton_append,
        computeHashFromAuntsRev_cons (by omega) (by omega) (by omega), hsplit,
        if_pos (by omega), hrec]
      rfl
    · rw [getElem?_append_right (by simpa [hnum, htake] using not_lt.1 hik),
        getElem?_map, map_eq_some_iff, length_map, hnum, htake] at hp
      obtain ⟨q, hq, rfl⟩ := hp
      have hrec := ihr (i - k) q hq
      rw [length_drop, Nat.cast_sub (not_lt.1 hik), Nat.cast_sub hlt.le] at hrec
      rw [reverse_append, reverse_singleton, singleton_append,
        computeHashFromAuntsRev_cons (by omega) (by omega) (by omega), hsplit,
        if_neg (by omega), hrec]
      rfl

section Descend
variable {I J : List Bytes}

theorem innerInputs_take (hlen : 2 ≤ ls.length) :
    innerInputs h (ls.take (splitPoint ls.length)) ⊆ innerInputs h ls := by
  rw [innerInputs_split hlen]
  exact subset_cons_of_subset _ (subset_append_left ..)

theorem innerInputs_drop (hlen : 2 ≤ ls.length) :
    innerInputs h (ls.drop (splitPoint ls.length)) ⊆ innerInputs h ls := by
  rw [innerInputs_split hlen]
  exact subset_cons_of_subset _ (subset_append_right ..)

/-- Aunts that lead to the root of a list lead to that of one of its halves. -/
theorem descend (hfree : NoCollision h I J)
    (hls : ∀ l ∈ ls, l.length = hashSize) (hleaf : leaf.length = hashSize) (hlen : 2 ≤ ls.length)
    (htotal : total ≠ 1) (hI : innerInputs h ls ⊆ I) (hJ : auntInputs h leaf index total aunts ⊆ J)
    (hok : computeHashFromAuntsRev h leaf index total aunts = .ok (treeRoot h ls)) :
    ∃ rest, (index < getSplitPoint total ∧ auntInputs h leaf index (getSplitPoint total) rest ⊆ J ∧
        computeHashFromAuntsRev h leaf index (getSplitPoint total) rest =
          .ok (treeRoot h (ls.take (splitPoint ls.length)))) ∨ (getSplitPoint total ≤ index ∧
        auntInputs h leaf (index - getSplitPoint total) (total - getSplitPoint total) rest ⊆ J ∧
        computeHashFromAuntsRev h leaf (index - getSplitPoint total) (total - getSplitPoint total)
          rest = .ok (treeRoot h (ls.drop (splitPoint ls.length)))) := by
  have hmem : _ ∈ I := hI (innerInputs_split hlen ▸ mem_cons_self)
  rw [treeRoot_split hlen] at hok
  obtain ⟨-, ⟨hone, -, -⟩ | ⟨aunt, rest, rfl, -, ⟨hi, left, hrec, hroot, hinputs⟩ |
    ⟨hi, right, hrec, hroot, hinputs⟩⟩⟩ := computeHashFromAuntsRev_eq_ok hok
  · exact absurd hone htotal
  · rw [hinputs, cons_subset] at hJ
    have heq := hfree _ hmem _ hJ.1 hroot
    have hleft := length_treeRoot h fun l (hl : l ∈ ls.take (splitPoint ls.length)) =>
      hls l (mem_of_mem_take hl)
    obtain ⟨rfl, -⟩ := append_inj (cons.inj heq).2
      (hleft.trans (length_of_computeHashFromAuntsRev hleaf hrec).symm)
    exact ⟨rest, .inl ⟨hi, hJ.2, hrec⟩⟩
  · rw [hinputs, cons_subset] at hJ
    have heq := hfree _ hmem _ hJ.1 hroot
    have hright := length_treeRoot h fun l (hl : l ∈ ls.drop (splitPoint ls.length)) =>
      hls l (mem_of_mem_drop hl)
    obtain ⟨-, rfl⟩ := append_inj' (cons.inj heq).2
      (hright.trans (length_of_computeHashFromAuntsRev hleaf hrec).symm)
    exact ⟨rest, .inr ⟨hi, hJ.2, hrec⟩⟩

/-- Aunts that lead to the root of a list lead there from the leaf hash at the index. -/
theorem leaf_of_computeHashFromAuntsRev (hfree : NoCollision h I J) (ls : List Bytes)
    (hls : ∀ l ∈ ls, l.length = hashSize) (hleaf : leaf.length = hashSize)
    (hI : innerInputs h ls ⊆ I) (hJ : auntInputs h leaf index ls.length aunts ⊆ J)
    (hok : computeHashFromAuntsRev h leaf index ls.length aunts = .ok (treeRoot h ls)) :
    0 ≤ index ∧ ls[index.toNat]? = some leaf := by
  induction ls using split_induction generalizing index aunts with
  | nil =>
    obtain ⟨hrange, -⟩ := computeHashFromAuntsRev_eq_ok hok
    simp only [length_nil] at hrange
    omega
  | single =>
    obtain ⟨hrange, ⟨-, -, hroot⟩ | ⟨aunt, rest, -, htwo, -⟩⟩ := computeHashFromAuntsRev_eq_ok hok
    · simp only [length_singleton] at hrange
      obtain rfl : index = 0 := by omega
      rw [treeRoot, fold_single] at hroot
      simp [hroot]
    · simp at htwo
  | split ls hlen ihl ihr =>
    have hlt := splitPoint_lt hlen
    obtain ⟨rest, hstep⟩ := descend hfree hls hleaf hlen (by omega) hI hJ hok
    rw [getSplitPoint_eq hlen] at hstep
    rcases hstep with ⟨hi, hJ', hrec⟩ | ⟨hi, hJ', hrec⟩
    · have htake : ((ls.take (splitPoint ls.length)).length : Int) = splitPoint ls.length := by
        rw [length_take]
        omega
      rw [← htake] at hJ' hrec
      obtain ⟨h0, hget⟩ := ihl (fun l hl => hls l (mem_of_mem_take hl))
        (List.Subset.trans (innerInputs_take hlen) hI) hJ' hrec
      refine ⟨h0, ?_⟩
      rwa [getElem?_take_of_lt (by omega)] at hget
    · have hdrop : ((ls.drop (splitPoint ls.length)).length : Int) =
          ls.length - splitPoint ls.length := by
        rw [length_drop]
        omega
      rw [← hdrop] at hJ' hrec
      obtain ⟨h0, hget⟩ := ihr (fun l hl => hls l (mem_of_mem_drop hl))
        (List.Subset.trans (innerInputs_drop hlen) hI) hJ' hrec
      refine ⟨by omega, ?_⟩
      rw [getElem?_drop] at hget
      rwa [show splitPoint ls.length + (index - splitPoint ls.length).toNat = index.toNat by
        omega] at hget

end Descend

end Compute

theorem proofsFromByteSlices_root (h : Digest) (items : List Bytes) :
    (proofsFromByteSlices h items).1 = hashFromByteSlices h items := by
  rw [hashFromByteSlices_eq]
  exact (trailsBy_spec h (leafHash h) items).1

theorem proofsFromByteSlices_get (h : Digest) {items : List Bytes} {i : Nat}
    {item : Bytes} (hitem : items[i]? = some item) : ∃ aunts, (proofsFromByteSlices h items).2[i]? =
        some ⟨ofNat items.length, ofNat i, leafHash h item, aunts⟩ ∧
      computeHashFromAuntsRev h (leafHash h item) i items.length aunts.reverse =
        .ok (hashFromByteSlices h items) := by
  obtain ⟨-, -, hparts⟩ := trailsBy_spec h (leafHash h) items
  set ps := paths (emptyHash h) (innerHash h) (items.map (leafHash h))
  have hfst : ps.map Prod.fst = items.map (leafHash h) := map_fst_paths _
  have hlen : i < ps.length := by
    have := congrArg length hfst
    simp only [length_map] at this
    rw [this]
    exact (List.getElem?_eq_some_iff.1 hitem).1
  have hp : ps[i]? = some ps[i] := getElem?_eq_getElem hlen
  have hleaf : ps[i].1 = leafHash h item := by
    have := congrArg (·[i]?) hfst
    simp only [getElem?_map, hp, hitem, map_some, some.injEq] at this
    exact this
  have hroot := computeHashFromAuntsRev_paths (items.map (leafHash h)) i ps[i] hp
  rw [hleaf, length_map, ← hashFromByteSlices_eq] at hroot
  refine ⟨ps[i].2, ?_, hroot⟩
  have htrail : ((trailsBy h (leafHash h) items).1.map proofParts)[i]? = some ps[i] := by
    rw [hparts]
    exact hp
  rw [getElem?_map, map_eq_some_iff] at htrail
  obtain ⟨t, ht, hparts'⟩ := htrail
  simp only [proofsFromByteSlices, proofsFromTrails, trailsFromByteSlices, getElem?_map,
    getElem?_zipIdx, ht, map_some, zero_add, some.injEq, Proof.mk.injEq,
    true_and]
  rw [← hleaf, ← hparts']
  exact ⟨rfl, rfl⟩

theorem Proof.verify_eq_ok {h : Digest} {sp : Proof} {root leaf : Bytes} :
    sp.verify h root leaf = .ok () ↔ 0 ≤ sp.total.toInt ∧ 0 ≤ sp.index.toInt ∧
      sp.leafHash = Merkle.leafHash h leaf ∧ sp.computeRootHash h = .ok root := by
  have htotal : sp.total < 0 ↔ sp.total.toInt < 0 := lt_iff_toInt_lt
  have hindex : sp.index < 0 ↔ sp.index.toInt < 0 := lt_iff_toInt_lt
  unfold verify
  by_cases h1 : sp.total < 0
  · rw [if_pos h1]
    have := htotal.1 h1
    simp
    omega
  by_cases h2 : sp.index < 0
  · rw [if_neg h1, if_pos h2]
    have := hindex.1 h2
    simp
    omega
  by_cases h3 : sp.leafHash ≠ Merkle.leafHash h leaf
  · rw [if_neg h1, if_neg h2, if_pos h3]
    simp [h3]
  rw [if_neg h1, if_neg h2, if_neg h3]
  have h1' : 0 ≤ sp.total.toInt := not_lt.1 (htotal.not.1 h1)
  have h2' : 0 ≤ sp.index.toInt := not_lt.1 (hindex.not.1 h2)
  cases sp.computeRootHash h with
  | error err => simp
  | ok computed =>
    dsimp only
    split_ifs with hne
    · simp [hne]
    · simp only [true_iff]
      exact ⟨h1', h2', not_not.1 h3, by rw [not_not.1 hne]⟩

/-- Every item has a proof that verifies, and a proof that verifies is one of an item. The length of
a slice is an `int`. -/
theorem inclusion_exact (h : Digest) (items : List Bytes) (hlen : items.length < 2 ^ 63) :
    (proofsFromByteSlices h items).1 = hashFromByteSlices h items ∧
    (∀ (i : Nat) (item : Bytes), items[i]? = some item → ∃ sp : Proof,
      (proofsFromByteSlices h items).2[i]? = some sp ∧
        sp.verify h (proofsFromByteSlices h items).1 item = .ok ()) ∧
    ∀ (sp : Proof) (leaf : Bytes), sp.total.toInt = items.length →
      NoCollision h (treeInputs h items) (sp.inputs h leaf) →
      sp.verify h (proofsFromByteSlices h items).1 leaf = .ok () →
      0 ≤ sp.index.toInt ∧ sp.index.toInt < items.length ∧
        items[sp.index.toInt.toNat]? = some leaf := by
  have hroot := proofsFromByteSlices_root h items
  refine ⟨hroot, fun i item hitem => ?_, fun sp leaf htotal hfree hverify => ?_⟩
  · obtain ⟨aunts, hget, hcompute⟩ := proofsFromByteSlices_get h hitem
    have hi : i < items.length := (List.getElem?_eq_some_iff.1 hitem).1
    refine ⟨_, hget, Proof.verify_eq_ok.2 ⟨?_, ?_, rfl, ?_⟩⟩
    · rw [toInt_ofNat_of_lt hlen]
      omega
    · rw [toInt_ofNat_of_lt (by omega)]
      omega
    · rw [hroot, Proof.computeRootHash, toInt_ofNat_of_lt hlen, toInt_ofNat_of_lt (by omega)]
      exact hcompute
  · obtain ⟨-, -, hleaf, hcompute⟩ := Proof.verify_eq_ok.1 hverify
    rw [hroot, hashFromByteSlices_eq, Proof.computeRootHash, htotal] at hcompute
    have hmap : ((items.map (leafHash h)).length : Int) = items.length := by simp
    rw [← hmap] at hcompute
    obtain ⟨h0, hget⟩ := leaf_of_computeHashFromAuntsRev hfree (items.map (leafHash h))
      (fun l hl => by
        obtain ⟨x, -, rfl⟩ := mem_map.1 hl
        exact length_leafHash h x)
      (hleaf ▸ length_leafHash h leaf) (subset_append_right ..)
      (by rw [hmap, ← htotal]; exact subset_cons_self ..) hcompute
    rw [getElem?_map, map_eq_some_iff] at hget
    obtain ⟨item, hitem, heq⟩ := hget
    have hpre : (0 :: item : Bytes) = 0 :: leaf :=
      hfree _ (mem_append_left _ (mem_map_of_mem (mem_of_getElem? hitem))) _
        mem_cons_self (heq.trans hleaf)
    refine ⟨h0, ?_, (cons.inj hpre).2 ▸ hitem⟩
    have := (List.getElem?_eq_some_iff.1 hitem).1
    omega

theorem inclusion_exact_three : (proofsFromByteSlices paddedDigest [[7], [8], [9]]).2[2]? =
        some ⟨3, 2, leafHash paddedDigest [9], [hashFromByteSlices paddedDigest [[7], [8]]]⟩ ∧
      Proof.verify paddedDigest
        ⟨3, 2, leafHash paddedDigest [9], [hashFromByteSlices paddedDigest [[7], [8]]]⟩
        (hashFromByteSlices paddedDigest [[7], [8], [9]]) [9] = .ok () ∧
      ([[7], [8], [9]] : List Bytes)[2]? = some [9] := by
  obtain ⟨hroot, hcomplete, hsound⟩ := inclusion_exact paddedDigest [[7], [8], [9]] (by decide)
  obtain ⟨sp, hget, hverify⟩ := hcomplete 2 [9] rfl
  have hsp : (proofsFromByteSlices paddedDigest [[7], [8], [9]]).2[2]? =
      some ⟨3, 2, leafHash paddedDigest [9], [hashFromByteSlices paddedDigest [[7], [8]]]⟩ := by
    decide +kernel
  obtain rfl := some.inj (hsp.symm.trans hget)
  refine ⟨hsp, hroot ▸ hverify, ?_⟩
  exact (hsound _ [9] (by decide) (by decide +kernel) hverify).2.2

/-! A proof states the number of leaves itself. When that is a power of two and the index is in its
first half, the path is as long as the left subtree is high. -/

section Path
variable {h : Digest} {leaf : Bytes} {index : Int} {aunts items : List Bytes}

theorem getSplitPoint_pow (b : Nat) : getSplitPoint ((2 ^ (b + 1) : Nat) : Int) =
    (2 ^ b : Nat) := by
  have hpos : 0 < 2 ^ b := Nat.two_pow_pos b
  rw [getSplitPoint_eq (by omega), splitPoint_unique (a := b) (by omega) (by omega)]

theorem length_of_leafHash {I ls : List Bytes} (hls : ∀ l ∈ ls, ∃ x, (0 :: x) ∈ I ∧
    l = leafHash h x) :
    ∀ l ∈ ls, l.length = hashSize := by
  intro l hl
  obtain ⟨x, -, rfl⟩ := hls l hl
  exact length_leafHash h x

/-- A tree whose size is a power of two is as high as the path of a leaf is long. -/
theorem height_of_perfect {I J ls : List Bytes} {a b : Nat} (hfree : NoCollision h I J)
    (hleaf : (0 :: leaf) ∈ J) (hls : ∀ l ∈ ls, ∃ x, (0 :: x) ∈ I ∧ l = leafHash h x)
    (hlen : ls.length = 2 ^ a) (hI : innerInputs h ls ⊆ I)
    (hJ : auntInputs h (leafHash h leaf) index (2 ^ b : Nat) aunts ⊆ J)
    (hok : computeHashFromAuntsRev h (leafHash h leaf) index (2 ^ b : Nat) aunts =
      .ok (treeRoot h ls)) : a = b := by
  induction a generalizing b index aunts ls with
  | zero =>
    obtain ⟨l, rfl⟩ := length_eq_one_iff.1 hlen
    obtain ⟨x, hx, rfl⟩ := hls l mem_cons_self
    rw [treeRoot, fold_single] at hok
    obtain ⟨-, ⟨hone, -, -⟩ | ⟨aunt, rest, rfl, -, ⟨-, left, -, heq, hinputs⟩ |
      ⟨-, right, -, heq, hinputs⟩⟩⟩ := computeHashFromAuntsRev_eq_ok hok
    · by_contra hb
      have : 2 ^ 1 ≤ 2 ^ b := Nat.pow_le_pow_right (by omega) (by omega)
      omega
    all_goals
      rw [hinputs, cons_subset] at hJ
      have := hfree _ hx _ hJ.1 heq
      simp at this
  | succ a ih =>
    have hpos : 0 < 2 ^ a := Nat.two_pow_pos a
    have htwo : 2 ≤ ls.length := by omega
    have hsplit : splitPoint ls.length = 2 ^ a := splitPoint_unique (by omega) (by omega)
    cases b with
    | zero =>
      rw [treeRoot_split htwo] at hok
      obtain ⟨-, ⟨-, -, heq⟩ | ⟨aunt, rest, -, hle, -⟩⟩ := computeHashFromAuntsRev_eq_ok hok
      · have := hfree _ (hI (innerInputs_split htwo ▸ mem_cons_self)) _ hleaf heq
        simp at this
      · simp at hle
    | succ b =>
      have htotal : ((2 ^ (b + 1) : Nat) : Int) - (2 ^ b : Nat) = (2 ^ b : Nat) := by omega
      obtain ⟨rest, hstep⟩ := descend hfree (length_of_leafHash hls) (length_leafHash h leaf) htwo
        (by omega) hI hJ hok
      rw [getSplitPoint_pow, htotal] at hstep
      rcases hstep with ⟨-, hJ', hrec⟩ | ⟨-, hJ', hrec⟩
      · rw [ih (fun l hl => hls l (mem_of_mem_take hl)) (by rw [length_take]; omega)
          (List.Subset.trans (innerInputs_take htwo) hI) hJ' hrec]
      · rw [ih (fun l hl => hls l (mem_of_mem_drop hl)) (by rw [length_drop]; omega)
          (List.Subset.trans (innerInputs_drop htwo) hI) hJ' hrec]

theorem leaf_of_firstHalf {b : Nat} (hlen : 2 ≤ items.length) (hindex : index < (2 ^ b : Nat))
    (hfree : NoCollision h (treeInputs h items)
      ((0 :: leaf) :: auntInputs h (leafHash h leaf) index (2 ^ (b + 1) : Nat) aunts))
    (hok : computeHashFromAuntsRev h (leafHash h leaf) index (2 ^ (b + 1) : Nat) aunts =
      .ok (treeRoot h (items.map (leafHash h)))) :
    splitPoint items.length = 2 ^ b ∧ items[index.toNat]? = some leaf := by
  have hpow : 0 < 2 ^ b := Nat.two_pow_pos b
  have hlt := splitPoint_lt hlen
  have htwo : 2 ≤ (items.map (leafHash h)).length := by simpa using hlen
  have hls : ∀ l ∈ items.map (leafHash h), ∃ x, (0 :: x) ∈ treeInputs h items ∧
      l = leafHash h x := by
    intro l hl
    obtain ⟨x, hx, rfl⟩ := mem_map.1 hl
    exact ⟨x, mem_append_left _ (mem_map_of_mem hx), rfl⟩
  obtain ⟨rest, hstep⟩ := descend hfree (length_of_leafHash hls) (length_leafHash h leaf) htwo
    (by omega) (subset_append_right ..) (subset_cons_self ..) hok
  rw [getSplitPoint_pow] at hstep
  obtain ⟨hi, hJ, hrec⟩ := hstep.resolve_right fun hright => absurd hright.1 (not_le.2 hindex)
  have hinner := List.Subset.trans (innerInputs_take htwo)
    (subset_append_right (items.map (0 :: ·)) (innerInputs h _))
  have hhalf : ∀ l ∈ (items.map (leafHash h)).take (splitPoint (items.map (leafHash h)).length),
      l ∈ items.map (leafHash h) := fun l hl => mem_of_mem_take hl
  have hsplit : splitPoint items.length = 2 ^ b := by
    rw [← height_of_perfect (a := (items.length - 1).log2) hfree mem_cons_self
      (fun l hl => hls l (hhalf l hl)) ?_ hinner hJ hrec]
    · rfl
    · rw [length_take, length_map, Nat.min_eq_left hlt.le]
      rfl
  refine ⟨hsplit, ?_⟩
  have htake : (((items.map (leafHash h)).take
      (splitPoint (items.map (leafHash h)).length)).length : Int) = (2 ^ b : Nat) := by
    rw [length_take, length_map, ← hsplit]
    omega
  rw [← htake] at hJ hrec
  obtain ⟨-, hget⟩ := leaf_of_computeHashFromAuntsRev hfree _
    (fun l hl => length_of_leafHash hls l (hhalf l hl)) (length_leafHash h leaf) hinner hJ hrec
  rw [List.getElem?_take_of_lt (by rw [length_map, hsplit]; omega), List.getElem?_map,
    Option.map_eq_some_iff] at hget
  obtain ⟨item, hitem, heq⟩ := hget
  have hpre := hfree _ (mem_append_left _ (mem_map_of_mem (mem_of_getElem? hitem))) _
    mem_cons_self heq
  exact (List.cons.inj hpre).2 ▸ hitem

end Path

end CelestiaCore.Merkle
