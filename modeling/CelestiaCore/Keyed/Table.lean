import Mathlib.Data.List.AList

/-!
# Tables

A map from keys to values is an association list with each key once; a loop over the map visits the
entries in the order of the list.
-/
namespace Keyed
open List AList

universe u v
variable {κ : Type u} {α : Type v}

abbrev Table (κ : Type u) (α : Type v) := AList fun _ : κ => α

namespace Table

def values (t : Table κ α) : List α := t.entries.map Sigma.snd

@[simp] theorem length_values (t : Table κ α) : (values t).length = t.entries.length := by
  rw [values, length_map]

variable [DecidableEq κ] {t : Table κ α} {k k' : κ} {v : α}

theorem lookup_insert_eq (t : Table κ α) (k k' : κ) (v : α) :
    (t.insert k v).lookup k' = if k' = k then some v else t.lookup k' := by
  by_cases h : k' = k
  · subst h
    rw [lookup_insert, if_pos rfl]
  · rw [lookup_insert_ne h, if_neg h]

theorem lookup_erase_eq (t : Table κ α) (k k' : κ) :
    (t.erase k).lookup k' = if k' = k then none else t.lookup k' := by
  by_cases h : k' = k
  · subst h
    rw [lookup_erase, if_pos rfl]
  · rw [lookup_erase_ne h, if_neg h]

theorem mem_iff_lookup : k ∈ t ↔ ∃ v, t.lookup k = some v := by
  rw [← lookup_isSome, Option.isSome_iff_exists]

theorem mem_singleton : k' ∈ (singleton k v : Table κ α) ↔ k' = k := by
  rw [← insert_empty, mem_insert]
  exact or_iff_left (notMem_empty _)

theorem mem_of_lookup (h : t.lookup k = some v) : k ∈ t := mem_iff_lookup.2 ⟨v, h⟩

theorem mem_values : v ∈ values t ↔ ∃ k, t.lookup k = some v := by
  constructor
  · intro h
    obtain ⟨⟨k, w⟩, hmem, rfl⟩ := mem_map.1 h
    exact ⟨k, mem_lookup_iff.2 hmem⟩
  · rintro ⟨k, h⟩
    exact mem_map.2 ⟨⟨k, v⟩, mem_lookup_iff.1 h, rfl⟩

theorem entries_erase (t : Table κ α) (k : κ) : (t.erase k).entries = kerase k t.entries := rfl

theorem values_insert (h : k ∉ t) (v : α) : values (t.insert k v) = v :: values t := by
  rw [values, entries_insert_of_notMem h]
  rfl

theorem values_erase (h : t.lookup k = some v) : (values t).Perm (v :: values (t.erase k)) := by
  have hmem : k ∈ t.entries.keys := mem_keys.1 (mem_of_lookup h)
  obtain ⟨w, l₁, l₂, hnot, hsplit, herase⟩ := exists_of_kerase hmem
  have hw : t.lookup k = some w :=
    mem_lookup_iff.2 (by rw [hsplit]; exact mem_append_right _ (mem_cons_self ..))
  obtain rfl : w = v := Option.some.inj (hw.symm.trans h)
  have hleft : values t = l₁.map Sigma.snd ++ w :: l₂.map Sigma.snd := by
    rw [values, hsplit, map_append, map_cons]
  have hright : values (t.erase k) = l₁.map Sigma.snd ++ l₂.map Sigma.snd := by
    rw [values, entries_erase, herase, map_append]
  rw [hleft, hright]
  exact perm_middle

theorem values_insert_eq (t : Table κ α) (k : κ) (w : α) :
    values (t.insert k w) = w :: values (t.erase k) := by
  rw [values, entries_insert]
  rfl

theorem length_insert_of_lookup (h : t.lookup k = some v) (w : α) :
    (t.insert k w).entries.length = t.entries.length := by
  have hperm := (values_erase h).length_eq
  have hinsert := congrArg length (values_insert_eq t k w)
  simp only [length_cons, length_values] at hperm hinsert
  omega

theorem length_erase_of_lookup (h : t.lookup k = some v) :
    (t.erase k).entries.length + 1 = t.entries.length := by
  have hperm := (values_erase h).length_eq
  simp only [length_cons, length_values] at hperm
  omega

def mapValues (f : α → α) (t : Table κ α) : Table κ α :=
  ⟨t.entries.map fun e => ⟨e.1, f e.2⟩, by
    have hkeys : (t.entries.map fun e => (⟨e.1, f e.2⟩ : Sigma fun _ : κ => α)).keys =
        t.entries.keys := by
      rw [List.keys, map_map]
      rfl
    rw [NodupKeys, hkeys]
    exact t.nodupKeys⟩

theorem lookup_mapValues (f : α → α) (t : Table κ α) (k : κ) :
    (mapValues f t).lookup k = (t.lookup k).map f := by
  refine Option.ext fun w => ?_
  rw [← Option.mem_def, mem_lookup_iff, mapValues, mem_map, Option.map_eq_some_iff]
  constructor
  · rintro ⟨⟨k', v⟩, hmem, heq⟩
    cases heq
    exact ⟨v, AList.mem_lookup_iff.2 hmem, rfl⟩
  · rintro ⟨v, hv, rfl⟩
    exact ⟨⟨k, v⟩, AList.mem_lookup_iff.1 hv, rfl⟩

omit [DecidableEq κ] in
theorem two_le_length (hk : k ∈ t) (hk' : k' ∈ t) (hne : k ≠ k') : 2 ≤ t.entries.length := by
  have hsub : [k, k'] ⊆ t.keys := by
    intro x hx
    rcases mem_pair.1 hx with rfl | rfl
    · exact AList.mem_keys.1 hk
    · exact AList.mem_keys.1 hk'
  have hle := (subperm_of_subset (by simpa using hne) hsub).length_le
  rwa [AList.keys, List.keys, length_map] at hle

theorem length_pos (hk : k ∈ t) : 0 < t.entries.length := by
  refine length_pos_of_mem (a := ?_) ?_
  · exact ⟨k, (t.lookup k).get (lookup_isSome.2 hk)⟩
  · exact mem_lookup_iff.1 (Option.get_mem _)

def KeyedBy (key : α → κ) (t : Table κ α) : Prop := ∀ k v, t.lookup k = some v → key v = k

variable {key : α → κ}

theorem KeyedBy.insert (h : KeyedBy key t) (hv : key v = k) : KeyedBy key (t.insert k v) := by
  intro k' w hw
  rw [lookup_insert_eq] at hw
  split_ifs at hw with hk
  · exact (Option.some.inj hw ▸ hv).trans hk.symm
  · exact h k' w hw

theorem KeyedBy.erase (h : KeyedBy key t) (k : κ) : KeyedBy key (t.erase k) := by
  intro k' w hw
  rw [lookup_erase_eq] at hw
  split_ifs at hw
  exact h k' w hw

theorem KeyedBy.lookup_of_mem (h : KeyedBy key t) (hv : v ∈ values t) :
    t.lookup (key v) = some v := by
  obtain ⟨k, hk⟩ := mem_values.1 hv
  rw [h k v hk]
  exact hk

theorem KeyedBy.nodup_values (h : KeyedBy key t) : (values t).Nodup := by
  refine Nodup.of_map key ?_
  have hkeys : (values t).map key = t.keys := by
    rw [values, map_map, AList.keys]
    refine map_congr_left fun e he => ?_
    exact h e.1 e.2 (mem_lookup_iff.2 he)
  rw [hkeys]
  exact t.keys_nodup

theorem KeyedBy.values_erase_perm (h : KeyedBy key t) {rest : List α}
    (hv : (values t).Perm (v :: rest)) : (values (t.erase (key v))).Perm rest := by
  have hlookup := h.lookup_of_mem (hv.mem_iff.2 (mem_cons_self ..))
  exact ((values_erase hlookup).symm.trans hv).cons_inv

theorem KeyedBy.foldl_erase {l rest : List α} (h : KeyedBy key t)
    (hl : (values t).Perm (l ++ rest)) : KeyedBy key (l.foldl (fun t v => t.erase (key v)) t) ∧
      (values (l.foldl (fun t v => t.erase (key v)) t)).Perm rest := by
  induction l generalizing t with
  | nil => exact ⟨h, hl⟩
  | cons v l ih => exact ih (h.erase _) (h.values_erase_perm hl)

end Table
end Keyed
