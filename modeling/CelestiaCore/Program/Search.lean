import Mathlib

/-!
# Binary search

The search of a sorted slice for the first index at which a condition holds, and the insertion
there. -/
namespace Search
open List

universe u
variable {α : Type u}

/-- The loop on the bounds `i` and `j`. -/
def between (f : ℕ → Bool) : ℕ → ℕ → ℕ → ℕ
  | 0, i, _ => i
  | fuel + 1, i, j =>
    if i < j then
      let h := (i + j) / 2
      if f h then between f fuel i h else between f fuel (h + 1) j
    else i

/-- The first index below `n` at which `f` is true, or `n`. -/
def search (n : ℕ) (f : ℕ → Bool) : ℕ := between f n 0 n

/-- The index of the first element for which the condition holds, or the length. -/
def searchList (l : List α) (after : α → Bool) : ℕ :=
  search l.length fun i => l[i]?.all after

def insertAt (l : List α) (i : ℕ) (x : α) : List α := l.take i ++ x :: l.drop i

/-- The new element goes before the first element for which the condition holds. -/
def insertBefore (after : α → Bool) (x : α) (l : List α) : List α :=
  insertAt l (searchList l after) x

def Upward (n : ℕ) (f : ℕ → Bool) : Prop := ∀ i j, i ≤ j → j < n → f i = true → f j = true

/-- What is below the lower bound is false, and what is from the upper bound on is true. -/
theorem between_spec {f : ℕ → Bool} {n : ℕ} (hf : Upward n f) {fuel i j : ℕ} (hij : i ≤ j)
    (hjn : j ≤ n) (hfuel : j - i ≤ fuel) (hlow : ∀ k < i, f k = false)
    (hhigh : ∀ k, j ≤ k → k < n → f k = true) :
    between f fuel i j ≤ n ∧ (∀ k < between f fuel i j, f k = false) ∧
      ∀ k, between f fuel i j ≤ k → k < n → f k = true := by
  induction fuel generalizing i j with
  | zero =>
    obtain rfl : i = j := by omega
    exact ⟨hjn, hlow, hhigh⟩
  | succ fuel ih =>
    rw [between]
    dsimp only
    split_ifs with hlt htrue
    · refine ih (by omega) (by omega) (by omega) hlow fun k hk hkn => ?_
      exact hf _ k hk hkn htrue
    · refine ih (by omega) hjn (by omega) (fun k hk => ?_) hhigh
      by_contra hk'
      exact htrue (hf k _ (by omega) (by omega) (by simpa using hk'))
    · obtain rfl : i = j := by omega
      exact ⟨hjn, hlow, hhigh⟩

theorem search_spec {n : ℕ} {f : ℕ → Bool} (hf : Upward n f) :
    search n f ≤ n ∧ (∀ k < search n f, f k = false) ∧
      ∀ k, search n f ≤ k → k < n → f k = true := by
  refine between_spec hf (Nat.zero_le n) le_rfl le_rfl (fun k hk => ?_) fun k hk hkn => ?_
  · omega
  · omega

variable {R : α → α → Prop} {after : α → Bool} {l : List α} {x : α}

theorem upward_of_pairwise (hl : l.Pairwise R)
    (hmono : ∀ y ∈ l, ∀ z ∈ l, R y z → after y = true → after z = true) :
    Upward l.length fun i => l[i]?.all after := by
  intro i j hij hj hi
  rcases Nat.eq_or_lt_of_le hij with rfl | hlt
  · exact hi
  · dsimp only at hi ⊢
    rw [getElem?_eq_getElem hj, Option.all_some]
    rw [getElem?_eq_getElem (by omega), Option.all_some] at hi
    exact hmono _ (getElem_mem _) _ (getElem_mem _)
      (pairwise_iff_getElem.1 hl i j (by omega) hj hlt) hi

/-- The search splits a sorted slice into what does not meet the condition and what does. -/
theorem searchList_split (hl : l.Pairwise R)
    (hmono : ∀ y ∈ l, ∀ z ∈ l, R y z → after y = true → after z = true) :
    (∀ y ∈ l.take (searchList l after), after y = false) ∧
      ∀ y ∈ l.drop (searchList l after), after y = true := by
  obtain ⟨-, hlow, hhigh⟩ := search_spec (upward_of_pairwise hl hmono)
  constructor
  · intro y hy
    obtain ⟨i, hi, rfl⟩ := mem_take_iff_getElem.1 hy
    have h := hlow i (by rw [searchList] at hi; omega)
    rwa [getElem?_eq_getElem (by omega), Option.all_some] at h
  · intro y hy
    obtain ⟨i, hi, rfl⟩ := mem_drop_iff_getElem.1 hy
    have h := hhigh (searchList l after + i) (Nat.le_add_right _ _) (by omega)
    rwa [getElem?_eq_getElem (by omega), Option.all_some] at h

theorem insertAt_perm (l : List α) (i : ℕ) (x : α) : (insertAt l i x).Perm (x :: l) := by
  have h : (insertAt l i x).Perm (x :: (l.take i ++ l.drop i)) := perm_middle
  rwa [take_append_drop] at h

theorem insertBefore_perm (after : α → Bool) (x : α) (l : List α) :
    (insertBefore after x l).Perm (x :: l) :=
  insertAt_perm l _ x

theorem insertBefore_pairwise (hl : l.Pairwise R)
    (hmono : ∀ y ∈ l, ∀ z ∈ l, R y z → after y = true → after z = true)
    (hbefore : ∀ y ∈ l, after y = false → R y x) (hafter : ∀ y ∈ l, after y = true → R x y) :
    (insertBefore after x l).Pairwise R := by
  obtain ⟨hlow, hhigh⟩ := searchList_split hl hmono
  have hsplit := hl
  rw [← take_append_drop (searchList l after) l, pairwise_append] at hsplit
  obtain ⟨htake, hdrop, hcross⟩ := hsplit
  refine pairwise_append.2 ⟨htake, pairwise_cons.2 ⟨fun y hy => ?_, hdrop⟩, fun y hy z hz => ?_⟩
  · exact hafter y (mem_of_mem_drop hy) (hhigh y hy)
  · rcases mem_cons.1 hz with rfl | hz
    · exact hbefore y (mem_of_mem_take hy) (hlow y hy)
    · exact hcross y hy z hz

/-- The condition compares by a rank, in whose order the slice is. -/
theorem insertBefore_ranked {β : Type*} [LinearOrder β] {rank : α → β} (hl : l.Pairwise R)
    (hR : ∀ y z, R y z ↔ rank y ≤ rank z) (hafter : ∀ y, after y = true ↔ rank x < rank y) :
    (insertBefore after x l).Pairwise R := by
  refine insertBefore_pairwise hl (fun y _ z _ hyz hy => ?_) (fun y _ hy => ?_) fun y _ hy => ?_
  · exact (hafter z).2 (((hafter y).1 hy).trans_le ((hR y z).1 hyz))
  · exact (hR y x).2 (not_lt.1 (mt (hafter y).2 (ne_true_of_eq_false hy)))
  · exact (hR x y).2 ((hafter y).1 hy).le

end Search
