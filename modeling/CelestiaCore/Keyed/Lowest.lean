import Mathlib

/-!
# The lowest keys

What a cache of bounded size keeps that evicts its highest key.
-/
namespace Keyed
open Finset

/-- The `n` lowest keys of those offered are kept, or all: one is left out only for `n` lower ones.
-/
structure Lowest {κ : Type} [LinearOrder κ] (n : ℕ) (offered kept : Finset κ) : Prop where
  subset : kept ⊆ offered
  card_le : kept.card ≤ n
  left : ∀ x ∈ offered, x ∉ kept → n ≤ kept.card ∧ ∀ k ∈ kept, k < x

namespace Lowest
variable {κ : Type} [LinearOrder κ] {n : ℕ} {offered kept : Finset κ} {x m : κ}

theorem add (h : Lowest n offered kept) (hroom : kept.card < n) :
    Lowest n (insert x offered) (insert x kept) := by
  refine ⟨insert_subset_insert x h.subset, (card_insert_le x kept).trans hroom, ?_⟩
  intro y hy hnot
  have := h.left y
  grind

theorem replace (h : Lowest n offered kept) (hfull : n ≤ kept.card) (hx : x ∉ kept) (hm : m ∈ kept)
    (hmax : ∀ k ∈ kept, k ≤ m) (hlt : x < m) :
    Lowest n (insert x offered) (insert x (kept.erase m)) := by
  have hcard : (insert x (kept.erase m)).card = kept.card := by
    rw [card_insert_of_notMem (by grind), card_erase_add_one hm]
  have hsub := insert_subset_insert x ((erase_subset m kept).trans h.subset)
  refine ⟨hsub, hcard.trans_le h.card_le, fun y hy hnot => ⟨hfull.trans_eq hcard.symm, ?_⟩⟩
  -- What was left out before lies above the key that goes.
  have hle : m ≤ y := by
    have := h.left y
    grind
  intro k hk
  refine lt_of_lt_of_le ?_ hle
  grind

theorem reject (h : Lowest n offered kept) (hfull : n ≤ kept.card) (hx : x ∉ kept)
    (hmax : ∀ k ∈ kept, k ≤ x) : Lowest n (insert x offered) kept := by
  refine ⟨h.subset.trans (subset_insert x offered), h.card_le, fun y hy hnot => ?_⟩
  obtain rfl | hy := Finset.mem_insert.1 hy
  · exact ⟨hfull, fun k hk => lt_of_le_of_ne (hmax k hk) (ne_of_mem_of_not_mem hk hx)⟩
  · exact h.left y hy hnot

end Lowest

end Keyed
