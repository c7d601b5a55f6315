import CelestiaCore.Keyed.Merge
import CelestiaCore.Types.ValidatorSet

/-!
# The rotation of the proposer

In a round every validator gains its power, and the one with the most priority loses the total.
-/
namespace CelestiaCore
open Wire Keyed Validator Function

/-- `v` comes before `w` in the choice of a proposer. -/
def Validator.Beats (v w : Validator) : Prop :=
  w.proposerPriority < v.proposerPriority ∨
    v.proposerPriority = w.proposerPriority ∧ compare v.address w.address = .lt

theorem Validator.Beats.trans {u v w : Validator} (h : u.Beats v) (h' : v.Beats w) : u.Beats w := by
  rcases h with h | ⟨h, hlt⟩ <;> rcases h' with h' | ⟨h', hlt'⟩
  · exact .inl (by omega)
  · exact .inl (by omega)
  · exact .inl (by omega)
  · exact .inr ⟨by omega, Std.TransCmp.lt_trans hlt hlt'⟩

theorem Validator.beats_or_beats {v w : Validator} (h : v.address ≠ w.address) :
    v.Beats w ∨ w.Beats v := by
  rcases lt_trichotomy v.proposerPriority w.proposerPriority with hlt | heq | hlt
  · exact .inr (.inl hlt)
  · cases hcmp : compare v.address w.address with
    | lt => exact .inl (.inr ⟨heq, hcmp⟩)
    | eq => exact absurd (Std.LawfulEqOrd.compare_eq_iff_eq.1 hcmp) h
    | gt => exact .inr (.inr ⟨heq.symm, Std.OrientedCmp.lt_of_gt hcmp⟩)
  · exact .inl (.inl hlt)

/-- What identifies a validator and its weight; the rotation changes only the priority. -/
def Validator.identity (v : Validator) : Bytes × Option PubKey × Int :=
  (v.address, v.pubKey, v.votingPower)

def Validator.withPriority (v : Validator) (p : Int) : Validator := { v with proposerPriority := p }

@[simp] theorem Validator.identity_withPriority (v : Validator) (p : Int) :
    (v.withPriority p).identity = v.identity := rfl

theorem keys_eq_of_identity {l l' : List Validator}
    (h : l.map identity = l'.map identity) : keys address l = keys address l' := by
  have := congrArg (List.map Prod.fst) h
  simpa [keys, identity, comp_def] using this

namespace ValidatorSet
variable {vals : List Validator} {total : Int}

theorem compareProposerPriority_eq (v w : Nat × Validator) (h : v.2.address ≠ w.2.address) :
    (v.2.Beats w.2 ∧ compareProposerPriority (some v) w = .ok v) ∨
      (w.2.Beats v.2 ∧ compareProposerPriority (some v) w = .ok w) := by
  rcases beats_or_beats h with hb | hb
  · refine .inl ⟨hb, ?_⟩
    rcases hb with hlt | ⟨heq, hlt⟩
    · simp [compareProposerPriority, hlt]
    · have hlt' : List.compareLex compare v.2.address w.2.address = .lt := hlt
      simp [compareProposerPriority, heq, hlt']
  · refine .inr ⟨hb, ?_⟩
    rcases hb with hlt | ⟨heq, hlt⟩
    · simp [compareProposerPriority, hlt, not_lt.2 hlt.le]
    · have hgt : List.compareLex compare v.2.address w.2.address = .gt :=
        Std.OrientedCmp.gt_of_lt hlt
      simp [compareProposerPriority, heq, hgt]

/-- A fold that keeps the better of two elements with different keys ends with the best. -/
theorem foldlM_choose {α : Type} {key : α → Bytes} {R : α → α → Prop}
    (htrans : ∀ a b c, R a b → R b c → R a c) {f : Option α → α → Except String (Option α)}
    (hf : ∀ a b, key a ≠ key b →
      (R a b ∧ f (some a) b = .ok (some a)) ∨ (R b a ∧ f (some a) b = .ok (some b)))
    (l : List α) (best : α) (h : ((best :: l).map key).Nodup) :
    ∃ b ∈ best :: l, l.foldlM f (some best) = .ok (some b) ∧ ∀ q ∈ best :: l, q = b ∨ R b q := by
  induction l generalizing best with
  | nil => exact ⟨best, by simp, rfl, by simp⟩
  | cons p l ih =>
    have hne : key best ≠ key p := by
      intro heq
      simp [heq] at h
    have hbest : ((best :: l).map key).Nodup :=
      h.sublist (List.Sublist.map _ ((List.sublist_cons_self p l).cons_cons best))
    have hp : ((p :: l).map key).Nodup := h.sublist (List.sublist_cons_self _ _)
    -- whichever is kept, the other one is no better than the end of the fold
    have hall {b kept other : α} (hkept : kept = b ∨ R b kept) (hlost : R kept other) :
      R b other := by
      rcases hkept with rfl | hb
      · exact hlost
      · exact htrans _ _ _ hb hlost
    rw [List.foldlM_cons]
    rcases hf best p hne with ⟨hbetter, heq⟩ | ⟨hbetter, heq⟩
    · obtain ⟨b, hb, hfold, hrest⟩ := ih best hbest
      refine ⟨b, ?_, by rw [heq]; exact hfold, fun q hq => ?_⟩
      · rcases List.mem_cons.1 hb with rfl | hb <;> simp [*]
      rcases List.mem_cons.1 hq with rfl | hq
      · exact hrest _ List.mem_cons_self
      rcases List.mem_cons.1 hq with rfl | hq
      · exact .inr (hall (hrest best List.mem_cons_self) hbetter)
      · exact hrest q (List.mem_cons_of_mem _ hq)
    · obtain ⟨b, hb, hfold, hrest⟩ := ih p hp
      refine ⟨b, List.mem_cons_of_mem _ hb, by rw [heq]; exact hfold, fun q hq => ?_⟩
      rcases List.mem_cons.1 hq with rfl | hq
      · exact .inr (hall (hrest p List.mem_cons_self) hbetter)
      · exact hrest q hq

variable (vals) in
theorem getValWithMostPriority_eq (hnodup : (keys address vals).Nodup) (hne : vals ≠ []) :
    ∃ i v, vals[i]? = some v ∧ getValWithMostPriority vals = .ok (some (i, v)) ∧
      ∀ j w, vals[j]? = some w → j ≠ i → v.Beats w := by
  set ps := vals.zipIdx.map fun p => (p.2, p.1) with hps
  have hmem : ∀ j w, (j, w) ∈ ps ↔ vals[j]? = some w := by
    intro j w
    simp [hps, List.mem_zipIdx_iff_getElem?]
  have haddr : ps.map (·.2.address) = keys address vals := by
    rw [hps, List.map_map, keys]
    conv_rhs => rw [← List.zipIdx_map_fst 0 vals]
    rw [List.map_map]
    rfl
  obtain ⟨p, ps', hcons⟩ : ∃ p ps', ps = p :: ps' := by
    cases hcases : ps with
    | nil =>
      rw [hps, List.map_eq_nil_iff, List.zipIdx_eq_nil_iff] at hcases
      exact absurd hcases hne
    | cons p ps' => exact ⟨p, ps', rfl⟩
  obtain ⟨⟨i, v⟩, hb, hfold, hall⟩ := foldlM_choose (R := fun v w => v.2.Beats w.2)
    (fun _ _ _ => Validator.Beats.trans)
    (f := fun res v => (compareProposerPriority res v).map some) (fun v w hne =>
      (compareProposerPriority_eq v w hne).imp (fun h => ⟨h.1, by rw [h.2]; rfl⟩)
        fun h => ⟨h.1, by rw [h.2]; rfl⟩)
    ps' p (by rw [← hcons, haddr]; exact hnodup)
  rw [← hcons] at hb hall
  refine ⟨i, v, (hmem i v).1 hb, ?_, ?_⟩
  · rw [getValWithMostPriority, ← hps, hcons, List.foldlM_cons]
    simpa [compareProposerPriority, Except.map, bind, Except.bind] using hfold
  · intro j w hj hne'
    rcases hall (j, w) ((hmem j w).2 hj) with heq | hbeats
    · exact absurd (Prod.ext_iff.1 heq).1 hne'
    · exact hbeats

def gainPower (vals : List Validator) : List Validator :=
  vals.map fun v => v.withPriority (safeAddClip v.proposerPriority v.votingPower)

theorem identity_gainPower (vals : List Validator) :
    (gainPower vals).map identity = vals.map identity := by
  simp [gainPower, comp_def]

variable (total) in
theorem incrementOnce_eq (hnodup : (keys address vals).Nodup)
    (hne : vals ≠ []) : ∃ i v, (gainPower vals)[i]? = some v ∧
      getValWithMostPriority (gainPower vals) = .ok (some (i, v)) ∧
      (∀ j w, (gainPower vals)[j]? = some w → j ≠ i → v.Beats w) ∧ incrementOnce total vals =
        .ok ((gainPower vals).set i (v.withPriority (safeSubClip v.proposerPriority total)),
          some (v.withPriority (safeSubClip v.proposerPriority total))) := by
  have hkeys := keys_eq_of_identity (identity_gainPower vals)
  obtain ⟨i, v, hi, hget, hall⟩ := getValWithMostPriority_eq (gainPower vals)
    (hkeys ▸ hnodup) (by simpa [gainPower] using hne)
  refine ⟨i, v, hi, hget, hall, ?_⟩
  have hget' : getValWithMostPriority (vals.map fun v =>
      { v with proposerPriority := safeAddClip v.proposerPriority v.votingPower }) =
        .ok (some (i, v)) := hget
  simp only [incrementOnce, hget', ok_bind]
  rfl

theorem identity_set {l : List Validator} {i : Nat} {v w : Validator} (hi : l[i]? = some v)
    (hw : w.identity = v.identity) : (l.set i w).map identity = l.map identity := by
  obtain ⟨hlt, rfl⟩ := List.getElem?_eq_some_iff.1 hi
  rw [List.map_set, hw, ← List.map_set, List.set_getElem_self]

theorem identity_incrementOnce (hnodup : (keys address vals).Nodup)
    {p : List Validator × Option Validator} (h : incrementOnce total vals = .ok p) :
    p.1.map identity = vals.map identity := by
  rcases eq_or_ne vals [] with rfl | hne
  · cases h
    rfl
  · obtain ⟨i, v, hi, -, -, heq⟩ := incrementOnce_eq total hnodup hne
    cases heq.symm.trans h
    exact (identity_set hi (v.identity_withPriority _)).trans (identity_gainPower vals)

theorem identity_incrementTimes (n : Nat) {p q : List Validator × Option Validator}
    (hnodup : (keys address p.1).Nodup) (h : incrementTimes total n p = .ok q) :
    q.1.map identity = p.1.map identity := by
  induction n generalizing p with
  | zero =>
    cases h
    rfl
  | succ n ih =>
    rw [incrementTimes] at h
    cases honce : incrementOnce total p.1 with
    | error err => simp [honce] at h
    | ok p' =>
      simp only [honce, ok_bind] at h
      have hid := identity_incrementOnce hnodup honce
      exact (ih (keys_eq_of_identity hid ▸ hnodup) h).trans hid

theorem identity_rescalePriorities (diffMax : Int) (vals : List Validator) :
    (rescalePriorities diffMax vals).map identity = vals.map identity := by
  unfold rescalePriorities
  split_ifs
  · rfl
  · dsimp only
    split_ifs
    · simp [identity, comp_def]
    · rfl

theorem identity_shiftByAvgProposerPriority (vals : List Validator) :
    (shiftByAvgProposerPriority vals).map identity = vals.map identity := by
  simp [shiftByAvgProposerPriority, identity, comp_def]

end ValidatorSet

end CelestiaCore
