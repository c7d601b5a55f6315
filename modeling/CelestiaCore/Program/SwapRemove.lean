import Mathlib

/-!
# Removal by swapping with the last element

An element of a slice is removed by writing the last element over it.
-/
namespace SwapRemove
open List

universe u
variable {α : Type u}

/-- One removal: the last element goes to the index, and the slice is cut by one. -/
def swapRemove (l : List α) (i : ℕ) : List α :=
  match l.getLast? with
  | none => []
  | some last => (l.set i last).dropLast

def removeAll (l : List α) (indexes : List ℕ) : List α := indexes.foldl swapRemove l

def others (l : List α) (indexes : List ℕ) : List α :=
  (l.zipIdx.filter fun p => p.2 ∉ indexes).map Prod.fst

/-- What stands before the index stays where it is, and what stands after it is kept. -/
theorem swapRemove_append (a : List α) (x : α) (b : List α) :
    ∃ r, r.Perm b ∧ swapRemove (a ++ x :: b) a.length = a ++ r := by
  rcases eq_nil_or_concat b with rfl | ⟨b', y, rfl⟩
  · exact ⟨[], List.Perm.refl [], by simp [swapRemove]⟩
  · refine ⟨y :: b', ?_, ?_⟩
    · rw [concat_eq_append]
      exact (perm_append_singleton y b').symm
    · have hlast : (a ++ x :: b'.concat y).getLast? = some y := by
        rw [concat_eq_append, ← cons_append, ← append_assoc, List.getLast?_concat]
      simp only [swapRemove, hlast]
      rw [set_append_right _ _ (Nat.le_refl _), Nat.sub_self, set_cons_zero,
        dropLast_append_of_ne_nil (by simp), concat_eq_append, ← cons_append,
        dropLast_concat]

theorem others_append (a b : List α) (indexes : List ℕ) : others (a ++ b) indexes =
      others a indexes ++ ((b.zipIdx a.length).filter fun p => p.2 ∉ indexes).map Prod.fst := by
  simp [others, zipIdx_append]

theorem map_filter_zipIdx_of_lt (b : List α) {k : ℕ} {indexes : List ℕ}
    (h : ∀ i ∈ indexes, i < k) : ((b.zipIdx k).filter fun p => p.2 ∉ indexes).map Prod.fst = b := by
  have hall : ∀ p ∈ b.zipIdx k, decide (p.2 ∉ indexes) = true := by
    intro p hp
    have hle : k ≤ p.2 := le_snd_of_mem_zipIdx hp
    exact decide_eq_true fun hmem => absurd (h p.2 hmem) (by omega)
  rw [filter_eq_self.2 hall, zipIdx_map_fst]

theorem others_congr (l : List α) {is js : List ℕ} (h : ∀ i < l.length, i ∈ is ↔ i ∈ js) :
    others l is = others l js := by
  unfold others
  congr 1
  refine filter_congr fun p hp => ?_
  have hlt : p.2 < l.length := by simpa using snd_lt_of_mem_zipIdx hp
  simp [h p.2 hlt]

theorem removeAll_append (a r : List α) (indexes : List ℕ) (hdesc : indexes.Pairwise (· > ·))
    (hlt : ∀ i ∈ indexes, i < a.length) :
    (removeAll (a ++ r) indexes).Perm (others a indexes ++ r) := by
  -- the elements from the last removed index on are only permuted from here on
  induction indexes generalizing a r with
  | nil =>
    have hall : others a [] = a := by simp [others]
    rw [hall]
    exact List.Perm.refl _
  | cons i is ih =>
    have hi : i < a.length := hlt i mem_cons_self
    obtain ⟨hgt, hdesc'⟩ := pairwise_cons.1 hdesc
    obtain ⟨a₁, x, a₂, ha, hlen⟩ : ∃ a₁ x a₂, a = a₁ ++ x :: a₂ ∧ a₁.length = i :=
      ⟨a.take i, a[i], a.drop (i + 1), by simp, by simp; omega⟩
    subst hlen
    subst ha
    obtain ⟨r', hr', heq⟩ := swapRemove_append a₁ x (a₂ ++ r)
    have hstep : removeAll (a₁ ++ x :: a₂ ++ r) (a₁.length :: is) = removeAll (a₁ ++ r') is := by
      show removeAll (swapRemove (a₁ ++ x :: a₂ ++ r) a₁.length) is = _
      rw [append_assoc, cons_append, heq]
    have hothers : others (a₁ ++ x :: a₂) (a₁.length :: is) = others a₁ is ++ a₂ := by
      rw [others_append, zipIdx_cons, filter_cons_of_neg (by simp)]
      congr 1
      · refine others_congr a₁ fun j hj => ?_
        rw [mem_cons]
        exact or_iff_right (by omega)
      · refine map_filter_zipIdx_of_lt a₂ fun j hj => ?_
        rcases mem_cons.1 hj with rfl | hj
        · omega
        · have := hgt j hj
          omega
    rw [hstep, hothers, append_assoc]
    exact (ih a₁ r' hdesc' hgt).trans (hr'.append_left _)

theorem removeAll_sorted (l : List α) (indexes : List ℕ) (hnodup : indexes.Nodup)
    (hlt : ∀ i ∈ indexes, i < l.length) :
    (removeAll l (indexes.insertionSort (· ≤ ·)).reverse).Perm (others l indexes) := by
  have hperm := perm_insertionSort (· ≤ ·) indexes
  have hmem : ∀ i, i ∈ (indexes.insertionSort (· ≤ ·)).reverse ↔ i ∈ indexes := fun i => by
    rw [mem_reverse, hperm.mem_iff]
  have hdesc : (indexes.insertionSort (· ≤ ·)).reverse.Pairwise (· > ·) := by
    rw [pairwise_reverse]
    have hsorted := pairwise_insertionSort (· ≤ ·) indexes
    have hne : (indexes.insertionSort (· ≤ ·)).Pairwise (· ≠ ·) := hperm.nodup_iff.2 hnodup
    exact hsorted.imp₂ (fun a b hle hab => lt_of_le_of_ne hle hab) hne
  have h := removeAll_append l [] _ hdesc fun i hi => hlt i ((hmem i).1 hi)
  rw [append_nil, append_nil] at h
  rwa [others_congr l fun i _ => hmem i] at h

end SwapRemove
