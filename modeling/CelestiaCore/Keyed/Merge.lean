import Mathlib

/-!
# Lists sorted by a key

Lookup, the merge in which the second list overrides the first, and the removal of a list of keys.
-/
namespace Keyed
open Std List

universe u v
variable {α : Type u} {κ : Type v} (key : α → κ)

def keys (l : List α) : List κ := l.map key

def lookup [DecidableEq κ] (l : List α) (k : κ) : Option α := l.find? fun x => key x = k

def within [DecidableEq κ] (l ds : List α) : List α := l.filter fun x => key x ∈ keys key ds

def without [DecidableEq κ] (l ds : List α) : List α := l.filter fun x => key x ∉ keys key ds

def Increasing [Ord κ] (l : List α) : Prop := l.Pairwise fun x y => compare (key x) (key y) = .lt

/-- Keys that do not decrease, the order of `sort`. -/
def Le [Ord κ] (x y : α) : Prop := (compare (key x) (key y)).isLE

instance [Ord κ] : DecidableRel (Le key) := fun x y =>
  inferInstanceAs (Decidable ((compare (key x) (key y)).isLE = true))

def sort [Ord κ] (l : List α) : List α := l.insertionSort (Le key)

/-- Merges the records from `x` on, whose tail is merged by `rest`, with those of the second
list. -/
def overrideFrom [Ord κ] (x : α) (rest : List α → List α) : List α → List α
  | [] => x :: rest []
  | y :: ys =>
    match compare (key x) (key y) with
    | .lt => x :: rest (y :: ys)
    | .eq => y :: rest ys
    | .gt => y :: overrideFrom x rest ys

/-- Merges two increasing lists; of two records with one key it takes the second list's. -/
def override [Ord κ] : List α → List α → List α
  | [], ys => ys
  | x :: xs, ys => overrideFrom key x (override xs) ys

/-- Removes the keys of the second list from the first in one pass over both; `none` if a key is
left over. -/
def remove [DecidableEq κ] : List α → List α → Option (List α)
  | xs, [] => some xs
  | [], _ :: _ => none
  | x :: xs, d :: ds =>
    if key x = key d then remove xs ds else (remove xs (d :: ds)).map (x :: ·)

section Lookup
variable {key} [DecidableEq κ] {l l' : List α} {x : α} {k : κ}

theorem lookup_eq_some (h : (keys key l).Nodup) : lookup key l k = some x ↔ x ∈ l ∧ key x = k := by
  induction l with
  | nil => simp [lookup]
  | cons y ys ih =>
    rw [keys, map_cons, nodup_cons] at h
    rw [lookup, List.find?_cons]
    by_cases hy : key y = k
    · simp only [hy, decide_true, Option.some.injEq, mem_cons]
      constructor
      · rintro rfl
        exact ⟨Or.inl rfl, hy⟩
      · rintro ⟨rfl | hx, hk⟩
        · rfl
        · exact absurd (mem_map.2 ⟨x, hx, hk.trans hy.symm⟩) h.1
    · simp only [hy, decide_false, mem_cons]
      apply (ih h.2).trans
      constructor
      · rintro ⟨hx, hk⟩
        exact ⟨Or.inr hx, hk⟩
      · rintro ⟨rfl | hx, hk⟩
        · exact absurd hk hy
        · exact ⟨hx, hk⟩

theorem lookup_eq_none : lookup key l k = none ↔ k ∉ keys key l := by
  simp [lookup, keys]

variable {ds : List α}

theorem mem_without : x ∈ without key l ds ↔ x ∈ l ∧ key x ∉ keys key ds := by
  simp [without]

theorem without_perm (h : l.Perm l') (ds : List α) : (without key l ds).Perm (without key l' ds) :=
  h.filter _

theorem without_append (l l' ds : List α) :
    without key (l ++ l') ds = without key l ds ++ without key l' ds :=
  filter_append ..

theorem without_eq_self (h : ∀ x ∈ l, key x ∉ keys key ds) : without key l ds = l :=
  filter_eq_self.2 fun x hx => by simpa using h x hx

theorem without_without {ds es fs : List α}
    (h : ∀ k, k ∈ keys key fs ↔ k ∈ keys key ds ∨ k ∈ keys key es) :
    without key (without key l ds) es = without key l fs := by
  rw [without, without, without, filter_filter]
  refine filter_congr fun x _ => ?_
  simp [h, Bool.and_comm]

theorem within_append_without_perm (l ds : List α) :
    (within key l ds ++ without key l ds).Perm l := by
  simpa [within, without] using filter_append_perm (fun x => decide (key x ∈ keys key ds)) l

theorem sum_map_ite_key (hd : (keys key ds).Nodup) (k : κ) (c : ℤ) :
    (ds.map fun d => if k = key d then c else 0).sum = if k ∈ keys key ds then c else 0 := by
  induction ds with
  | nil => simp [keys]
  | cons d ds ih =>
    rw [keys, map_cons, nodup_cons] at hd
    rw [map_cons, sum_cons, ih hd.2]
    by_cases hk : k = key d
    · subst hk
      simp [keys, show key d ∉ List.map key ds from hd.1]
    · simp [keys, hk]

/-- Adding up what the keys of one list find in another is adding up the records found. -/
theorem sum_lookup (hl : (keys key l).Nodup) (hd : (keys key ds).Nodup) (f : α → ℤ) :
    (ds.map fun d => (lookup key l (key d)).elim 0 f).sum = ((within key l ds).map f).sum := by
  induction l with
  | nil => simp [lookup, within]
  | cons x l ih =>
    rw [keys, map_cons, nodup_cons] at hl
    have hsplit : ∀ d, (lookup key (x :: l) (key d)).elim 0 f =
        (if key x = key d then f x else 0) + (lookup key l (key d)).elim 0 f := by
      intro d
      by_cases hx : key x = key d
      · have hnone : lookup key l (key d) = none := lookup_eq_none.2 (hx ▸ hl.1)
        simp [lookup, hx, show l.find? (fun y => key y = key d) = none from hnone]
      · simp [lookup, hx]
    simp only [hsplit, sum_map_add, ih hl.2, sum_map_ite_key hd]
    by_cases hx : key x ∈ keys key ds
    · simp [within, hx]
    · simp [within, hx]

end Lookup

section Order
variable {key} [Ord κ] {l l' : List α}

theorem sort_perm (l : List α) : (sort key l).Perm l := perm_insertionSort ..

theorem ne_of_compare_lt [ReflOrd κ] {a b : κ} (h : compare a b = .lt) : a ≠ b := by
  rintro rfl
  rw [ReflOrd.compare_self] at h
  cases h

theorem Increasing.of_keys_eq (h : Increasing key l) (hkeys : keys key l' = keys key l) :
    Increasing key l' := by
  have hpair : (keys key l).Pairwise fun a b => compare a b = .lt := pairwise_map.2 h
  rw [← hkeys] at hpair
  exact pairwise_map.1 hpair

theorem Increasing.nodup [ReflOrd κ] (h : Increasing key l) : (keys key l).Nodup := by
  rw [keys, List.Nodup, pairwise_map]
  exact .imp ne_of_compare_lt h

variable [TransOrd κ] [LawfulEqOrd κ]

instance : Std.Total (Le key) where
  total x y := by
    cases h : compare (key x) (key y) with
    | lt => exact Or.inl (by simp [Le, h])
    | eq => exact Or.inl (by simp [Le, h])
    | gt => exact Or.inr (by simp [Le, OrientedCmp.lt_of_gt h])

instance : IsTrans α (Le key) where
  trans _ _ _ := TransCmp.isLE_trans

theorem sort_increasing (h : (keys key l).Nodup) : Increasing key (sort key l) := by
  have hnodup : (keys key (sort key l)).Nodup := ((sort_perm l).map key).nodup_iff.2 h
  rw [keys, List.Nodup, pairwise_map] at hnodup
  refine .imp ?_ (hnodup.and (pairwise_insertionSort (Le key) l))
  rintro x y ⟨hne, hle⟩
  cases hcmp : compare (key x) (key y) with
  | lt => rfl
  | eq => exact absurd (LawfulEqOrd.compare_eq_iff_eq.1 hcmp) hne
  | gt => simp [Le, hcmp] at hle

theorem Increasing.eq_of_perm (h : Increasing key l) (h' : Increasing key l') (hperm : l.Perm l') :
    l = l' := by
  refine List.Perm.eq_of_pairwise (fun x y _ _ hxy hyx => ?_) h h' hperm
  have := TransCmp.lt_trans hxy hyx
  rw [ReflOrd.compare_self] at this
  cases this

end Order

section Override
variable {key} [Ord κ] {xs ys : List α} {x y : α}

@[simp] theorem override_nil_left (ys : List α) : override key [] ys = ys := rfl

@[simp] theorem override_nil_right (xs : List α) : override key xs [] = xs := by
  induction xs with
  | nil => rfl
  | cons x xs ih => rw [override, overrideFrom, ih]

theorem override_cons_cons (x : α) (xs : List α) (y : α) (ys : List α) :
    override key (x :: xs) (y :: ys) =
      match compare (key x) (key y) with
      | .lt => x :: override key xs (y :: ys)
      | .eq => y :: override key xs ys
      | .gt => y :: override key (x :: xs) ys := rfl

section
variable [TransOrd κ]

theorem Increasing.lt_of_lt_head (h : Increasing key (x :: xs)) {k : κ}
    (hk : compare k (key x) = .lt) : ∀ z ∈ x :: xs, compare k (key z) = .lt := by
  intro z hz
  rcases mem_cons.1 hz with rfl | hz
  · exact hk
  · exact TransCmp.lt_trans hk (rel_of_pairwise_cons h hz)

theorem Increasing.key_ne_of_lt_head (h : Increasing key (x :: xs)) {k : κ}
    (hk : compare k (key x) = .lt) : k ∉ keys key (x :: xs) := by
  rw [keys, mem_map]
  rintro ⟨z, hz, rfl⟩
  exact ne_of_compare_lt (h.lt_of_lt_head hk z hz) rfl

end

variable [TransOrd κ] [LawfulEqOrd κ] [DecidableEq κ]

/-- The records of the merge: those of the second list and those of the first that it does not
override. -/
theorem override_perm (hx : Increasing key xs) (hy : Increasing key ys) :
    (override key xs ys).Perm (ys ++ without key xs ys) := by
  unfold without
  induction xs generalizing ys with
  | nil => simp
  | cons x xs ihx =>
    induction ys with
    | nil => simp [keys]
    | cons y ys ihy =>
      rw [override_cons_cons]
      cases hcmp : compare (key x) (key y) with
      | lt =>
        have hnot := hy.key_ne_of_lt_head hcmp
        rw [filter_cons_of_pos (by simpa using hnot)]
        exact ((ihx hx.of_cons hy).cons x).trans perm_middle.symm
      | eq =>
        have heq : key x = key y := LawfulEqOrd.compare_eq_iff_eq.1 hcmp
        rw [filter_cons_of_neg (by simp [keys, heq])]
        refine ((ihx hx.of_cons hy.of_cons).cons y).trans (.of_eq ?_)
        rw [cons_append]
        congr 2
        refine filter_congr fun z hz => ?_
        have hlt : compare (key y) (key z) = .lt := heq ▸ rel_of_pairwise_cons hx hz
        simp [keys, (ne_of_compare_lt hlt).symm]
      | gt =>
        refine ((ihy hy.of_cons).cons y).trans (.of_eq ?_)
        rw [cons_append]
        congr 2
        refine filter_congr fun z hz => ?_
        have hlt := hx.lt_of_lt_head (OrientedCmp.lt_of_gt hcmp) z hz
        simp [keys, (ne_of_compare_lt hlt).symm]

theorem override_increasing (hx : Increasing key xs) (hy : Increasing key ys) :
    Increasing key (override key xs ys) := by
  induction xs generalizing ys with
  | nil => exact hy
  | cons x xs ihx =>
    induction ys with
    | nil => simpa using hx
    | cons y ys ihy =>
      rw [override_cons_cons]
      -- whichever record comes first, its key is below all the keys that are merged after it
      cases hcmp : compare (key x) (key y) with
      | lt =>
        refine pairwise_cons.2 ⟨fun z hz => ?_, ihx hx.of_cons hy⟩
        rcases mem_append.1 ((override_perm hx.of_cons hy).mem_iff.1 hz) with hz | hz
        · exact hy.lt_of_lt_head hcmp z hz
        · exact rel_of_pairwise_cons hx (mem_of_mem_filter hz)
      | eq =>
        have heq : key x = key y := LawfulEqOrd.compare_eq_iff_eq.1 hcmp
        refine pairwise_cons.2 ⟨fun z hz => ?_, ihx hx.of_cons hy.of_cons⟩
        rcases mem_append.1 ((override_perm hx.of_cons hy.of_cons).mem_iff.1 hz) with hz | hz
        · exact rel_of_pairwise_cons hy hz
        · exact heq ▸ rel_of_pairwise_cons hx (mem_of_mem_filter hz)
      | gt =>
        refine pairwise_cons.2 ⟨fun z hz => ?_, ihy hy.of_cons⟩
        rcases mem_append.1 ((override_perm hx hy.of_cons).mem_iff.1 hz) with hz | hz
        · exact rel_of_pairwise_cons hy hz
        · exact hx.lt_of_lt_head (OrientedCmp.lt_of_gt hcmp) z (mem_of_mem_filter hz)

end Override

section Remove
variable {key} [Ord κ] [TransOrd κ] [LawfulEqOrd κ] [DecidableEq κ] {xs ds : List α}

theorem remove_eq (hx : Increasing key xs) (hd : Increasing key ds)
    (hsub : ∀ d ∈ ds, key d ∈ keys key xs) : remove key xs ds = some (without key xs ds) := by
  unfold without
  induction xs generalizing ds with
  | nil =>
    cases ds with
    | nil => rfl
    | cons d ds => simpa [keys] using hsub d
  | cons x xs ih =>
    cases ds with
    | nil => simp [remove, keys]
    | cons d ds =>
      rw [remove]
      split_ifs with heq
      · have hrest : ∀ e ∈ ds, key e ∈ keys key xs := by
          intro e he
          have hne := ne_of_compare_lt (rel_of_pairwise_cons hd he)
          refine (mem_cons.1 (hsub e (mem_cons_of_mem _ he))).resolve_left fun h => ?_
          exact hne (heq.symm.trans h.symm)
        rw [ih hx.of_cons hd.of_cons hrest, filter_cons_of_neg (by simp [keys, heq])]
        congr 1
        refine filter_congr fun z hz => ?_
        have hne : key z ≠ key d :=
          heq ▸ (ne_of_compare_lt (rel_of_pairwise_cons hx hz)).symm
        simp [keys, hne]
      · -- the first key to remove occurs further on, so the head is below all of them
        have hmem : key d ∈ keys key xs :=
          (mem_cons.1 (hsub d mem_cons_self)).resolve_left (Ne.symm heq)
        obtain ⟨w, hw, hwd⟩ := mem_map.1 hmem
        have hlt : compare (key x) (key d) = .lt := hwd ▸ rel_of_pairwise_cons hx hw
        have hnot : key x ∉ keys key (d :: ds) := hd.key_ne_of_lt_head hlt
        have hrest : ∀ e ∈ d :: ds, key e ∈ keys key xs := by
          intro e he
          refine (mem_cons.1 (hsub e he)).resolve_left fun h => hnot ?_
          exact mem_map.2 ⟨e, he, h⟩
        rw [ih hx.of_cons hd hrest, filter_cons_of_pos (by simpa using hnot)]
        rfl

end Remove

end Keyed
