import Mathlib

/-!
# Weighted quorums and slot arrays

Sums of weights over members, and arrays of optional entries whose filled slots carry weight.
-/
namespace Quorum
open Finset

section Weights
variable {ι : Type*} [DecidableEq ι] {w : ι → ℤ}

/-- Two sets that each weigh more than two thirds share a member outside any set that weighs less
than one third. -/
theorem exists_common_outside {u s t f : Finset ι} (hw : ∀ i, 0 ≤ w i) (hs : s ⊆ u) (ht : t ⊆ u)
    (hs3 : 2 * ∑ i ∈ u, w i < 3 * ∑ i ∈ s, w i) (ht3 : 2 * ∑ i ∈ u, w i < 3 * ∑ i ∈ t, w i)
    (hf : 3 * ∑ i ∈ f, w i < ∑ i ∈ u, w i) : ∃ i ∈ s, i ∈ t ∧ i ∉ f := by
  by_contra hnone
  push Not at hnone
  have hsub : s ∩ t ⊆ f := by
    intro i hi
    obtain ⟨his, hit⟩ := mem_inter.1 hi
    exact hnone i his hit
  have hinter : ∑ i ∈ s ∩ t, w i ≤ ∑ i ∈ f, w i :=
    sum_le_sum_of_subset_of_nonneg hsub fun i _ _ => hw i
  have hunion : ∑ i ∈ s ∪ t, w i ≤ ∑ i ∈ u, w i :=
    sum_le_sum_of_subset_of_nonneg (union_subset hs ht) fun i _ _ => hw i
  have hsplit : ∑ i ∈ s ∪ t, w i + ∑ i ∈ s ∩ t, w i = ∑ i ∈ s, w i + ∑ i ∈ t, w i :=
    sum_union_inter
  linarith

end Weights

section Slots
variable {α : Type*}

/-- Entry `i` of an array of optional entries. -/
def slot (l : List (Option α)) (i : ℕ) : Option α :=
  l.getD i none

def filled (l : List (Option α)) : Finset ℕ :=
  (range l.length).filter fun i => (slot l i).isSome

variable {l : List (Option α)} {i : ℕ}

theorem slot_of_length_le (h : l.length ≤ i) : slot l i = none := by
  simp [slot, List.getD_eq_getElem?_getD, List.getElem?_eq_none h]

theorem slot_eq_some {x : α} : slot l i = some x ↔ l[i]? = some (some x) := by
  rw [slot, List.getD_eq_getElem?_getD]
  cases l[i]? <;> simp

theorem mem_filled : i ∈ filled l ↔ (slot l i).isSome := by
  simp only [filled, mem_filter, mem_range, and_iff_right_iff_imp]
  intro h
  by_contra hlen
  simp [slot_of_length_le (not_lt.1 hlen)] at h

theorem slot_set {i j : ℕ} (x : Option α) (hi : i < l.length) :
    slot (l.set i x) j = if i = j then x else slot l j := by
  simp only [slot, List.getD_eq_getElem?_getD, List.getElem?_set]
  split_ifs with h
  · simp
  · rfl

@[simp] theorem slot_replicate (n i : ℕ) : slot (List.replicate n (none : Option α)) i = none := by
  simp only [slot, List.getD_eq_getElem?_getD, List.getElem?_replicate]
  split_ifs <;> rfl

@[simp] theorem filled_replicate (n : ℕ) : filled (List.replicate n (none : Option α)) = ∅ := by
  ext i
  simp [mem_filled]

theorem filled_subset_range {n : ℕ} (h : l.length = n) : filled l ⊆ range n := by
  rw [← h]
  exact filter_subset _ _

theorem sum_filled_set_of_none {x : α} (w : ℕ → ℤ) (hi : i < l.length) (hnone : slot l i = none) :
    ∑ j ∈ filled (l.set i (some x)), w j = ∑ j ∈ filled l, w j + w i := by
  have hins : filled (l.set i (some x)) = insert i (filled l) := by
    ext j
    rw [mem_filled, slot_set _ hi, mem_insert, mem_filled]
    by_cases hij : i = j
    · simp [hij]
    · simp [hij, Ne.symm hij]
  have hnot : i ∉ filled l := by simp [mem_filled, hnone]
  rw [hins, sum_insert hnot, add_comm]

theorem filled_set_of_some {x : α} (hi : i < l.length)
    (hsome : (slot l i).isSome) : filled (l.set i (some x)) = filled l := by
  ext j
  rw [mem_filled, slot_set _ hi, mem_filled]
  by_cases hij : i = j
  · subst hij
    simp [hsome]
  · simp [hij]

end Slots

end Quorum
