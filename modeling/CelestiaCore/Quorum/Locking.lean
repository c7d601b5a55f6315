import CelestiaCore.Quorum.Weighted

/-!
# Agreement by locking

A member that precommitted a value prevotes for another one only after a later round excluded it.
This is enough for agreement on the values that have a quorum of precommits. -/
namespace Quorum

/-- Members with weights, of which a minority in weight may do anything. -/
structure Committee (κ : Type*) where
  members : Finset κ
  weight : κ → ℤ
  faulty : Finset κ
  weight_nonneg : ∀ k, 0 ≤ weight k
  minority : 3 * ∑ k ∈ faulty, weight k < ∑ k ∈ members, weight k

namespace Committee
variable {κ V : Type*} {C : Committee κ} {p q : κ → Prop}

/-- Some members of more than two thirds of the weight are faulty or satisfy `p`. -/
def HasQuorum (C : Committee κ) (p : κ → Prop) : Prop :=
  ∃ s ⊆ C.members, 2 * ∑ k ∈ C.members, C.weight k < 3 * ∑ k ∈ s, C.weight k ∧
    ∀ k ∈ s, k ∉ C.faulty → p k

theorem HasQuorum.mono (h : C.HasQuorum p) (hpq : ∀ k, k ∉ C.faulty → p k → q k) :
    C.HasQuorum q := by
  obtain ⟨s, hs, hweight, hp⟩ := h
  exact ⟨s, hs, hweight, fun k hk hf => hpq k hf (hp k hk hf)⟩

theorem HasQuorum.common (hp : C.HasQuorum p) (hq : C.HasQuorum q) :
    ∃ k, k ∉ C.faulty ∧ p k ∧ q k := by
  classical
  obtain ⟨s, hs, hsw, hsp⟩ := hp
  obtain ⟨t, ht, htw, htq⟩ := hq
  obtain ⟨k, hks, hkt, hkf⟩ := exists_common_outside C.weight_nonneg hs ht hsw htw C.minority
  exact ⟨k, hkf, hsp k hks hkf, htq k hkt hkf⟩

theorem HasQuorum.exists_honest (h : C.HasQuorum p) : ∃ k, k ∉ C.faulty ∧ p k := by
  obtain ⟨k, hk, hp, -⟩ := h.common h
  exact ⟨k, hk, hp⟩

end Committee

/-- The votes the members of a committee have cast, and the rounds in which they do not precommit
any more. -/
structure Ballots (κ V : Type*) where
  prevoted : κ → ℤ → V → Prop
  precommitted : κ → ℤ → V → Prop
  passed : κ → ℤ → Prop

namespace Ballots
variable {κ V : Type*} {C : Committee κ} {B B' : Ballots κ V} {nil v w : V} {r r' q : ℤ}

/-- The value can still get a quorum of precommits in the round. -/
def Possible (C : Committee κ) (B : Ballots κ V) (r : ℤ) (v : V) : Prop :=
  C.HasQuorum fun k => B.precommitted k r v ∨ ¬B.passed k r

/-- No value other than `v` can get a quorum of precommits in a round before `q`. -/
def Excludes (C : Committee κ) (nil : V) (B : Ballots κ V) (q : ℤ) (v : V) : Prop :=
  ∀ r w, r < q → w ≠ nil → w ≠ v → ¬B.Possible C r w

theorem possible_of_quorum (h : C.HasQuorum fun k => B.precommitted k r v) : B.Possible C r v :=
  h.mono fun _ _ => Or.inl

/-- Members vote on: they precommit only in rounds that they have not passed. -/
structure Grows (C : Committee κ) (B B' : Ballots κ V) : Prop where
  precommitted : ∀ k r v, k ∉ C.faulty → B'.precommitted k r v →
    B.precommitted k r v ∨ ¬B.passed k r
  passed : ∀ k r, k ∉ C.faulty → B.passed k r → B'.passed k r

theorem Possible.of_grows (h : B'.Possible C r v) (hgrows : Grows C B B') : B.Possible C r v := by
  refine h.mono fun k hk hp => ?_
  obtain hp | hp := hp
  · exact hgrows.precommitted k r v hk hp
  · exact Or.inr fun hpassed => hp (hgrows.passed k r hk hpassed)

theorem Excludes.grows (h : B.Excludes C nil q v) (hgrows : Grows C B B') : B'.Excludes C nil q v :=
  fun r w hr hnil hne hpossible => h r w hr hnil hne (hpossible.of_grows hgrows)

/-- A quorum of prevotes for a value excludes the others, if every member with an earlier precommit
of another value had that value excluded first. -/
theorem excludes_of_quorum (hpassed : ∀ k r, k ∉ C.faulty → B.prevoted k q v → r < q → B.passed k r)
    (hexcused : ∀ k r w, k ∉ C.faulty → B.precommitted k r w → B.prevoted k q v → r < q →
      w ≠ nil → w ≠ v → ∃ p u, r < p ∧ w ≠ u ∧ B.Excludes C nil p u)
    (hquorum : C.HasQuorum fun k => B.prevoted k q v) : B.Excludes C nil q v := by
  intro r w hr hnil hne hpossible
  obtain ⟨k, hk, hprevoted, hpre | hopen⟩ := hquorum.common hpossible
  · obtain ⟨p, u, hp, hu, hexcludes⟩ := hexcused k r w hk hpre hprevoted hr hnil hne
    exact hexcludes r w hp hnil hu hpossible
  · exact hopen (hpassed k r hk hprevoted hr)

variable (hjustified : ∀ k r v, k ∉ C.faulty → B.precommitted k r v → v ≠ nil →
  ∃ p, r ≤ p ∧ B.Excludes C nil p v)
include hjustified

/-- A value with a quorum of precommits is the only one up to any round in which it was
precommitted. -/
theorem eq_of_quorums_of_lt (hv : C.HasQuorum fun k => B.precommitted k r v)
    (hw : C.HasQuorum fun k => B.precommitted k r' w)
    (hlt : r < r') (hvnil : v ≠ nil) (hwnil : w ≠ nil) : v = w := by
  obtain ⟨k, hk, hpre⟩ := hw.exists_honest
  obtain ⟨p, hp, hexcludes⟩ := hjustified k r' w hk hpre hwnil
  by_contra hne
  exact hexcludes r v (hlt.trans_le hp) hvnil hne (possible_of_quorum hv)

/-- Agreement: if members precommit a value only where it excludes the others, and one a round,
values with a quorum of precommits are equal. -/
theorem eq_of_quorums
    (honce : ∀ k r v w, k ∉ C.faulty → B.precommitted k r v → B.precommitted k r w → v = w)
    (hv : C.HasQuorum fun k => B.precommitted k r v)
    (hw : C.HasQuorum fun k => B.precommitted k r' w)
    (hvnil : v ≠ nil) (hwnil : w ≠ nil) : v = w := by
  obtain hlt | rfl | hlt := lt_trichotomy r r'
  · exact eq_of_quorums_of_lt hjustified hv hw hlt hvnil hwnil
  · obtain ⟨k, hk, hpre, hpre'⟩ := hv.common hw
    exact honce k r v w hk hpre hpre'
  · exact (eq_of_quorums_of_lt hjustified hw hv hlt hwnil hvnil).symm

end Ballots

end Quorum
