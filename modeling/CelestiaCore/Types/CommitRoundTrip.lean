import CelestiaCore.Types.MakeCommit
import CelestiaCore.Types.VerifyComplete

/-!
# Commits and vote sets

The commit of a majority verifies, and `ToVoteSet` turns it back into a set with the same majority.
-/
namespace CelestiaCore
open Wire Quorum List Option ValidatorSet

section Power
variable {crypto : CompleteBatchCrypto} {chainID : Bytes} {height : Int64} {round : Int32}
  {vals : ValidatorSet} {b : BlockID} {votes : List (Option Vote)}

theorem commitPower_eq_sum (vals : ValidatorSet) (sigs : List CommitSig) (idx : Nat) :
    commitPower vals sigs idx = ∑ j ∈ Finset.range sigs.length,
      if sigs[j]?.any (·.blockIDFlag = .commit) then vals.power (idx + j) else 0 := by
  induction sigs generalizing idx with
  | nil => simp [commitPower]
  | cons sig sigs ih =>
    rw [commitPower, ih, length_cons, Finset.sum_range_succ', add_comm]
    simp [Nat.add_assoc, Nat.add_comm 1]

/-- The power of a commit is at least that of any votes for its block that it carries. -/
theorem sum_le_commitPower (hvals : vals.Bounded) {s : Finset Nat}
    (hs : ∀ i ∈ s, ∃ v, votes[i]? = some (some v) ∧ v.blockID = b) (hb : b ≠ .zero) :
    ∑ i ∈ s, vals.power i ≤ commitPower vals (commitOf height round b votes).signatures 0 := by
  rw [commitPower_eq_sum]
  simp only [Nat.zero_add]
  rw [← Finset.sum_filter]
  refine Finset.sum_le_sum_of_subset_of_nonneg ?_ fun i _ _ => hvals.power_nonneg i
  intro i hi
  obtain ⟨v, hv, hblock⟩ := hs i hi
  have hcarried : carried b (some v) = some v := carried_eq_some.2 ⟨rfl, Or.inl hblock⟩
  obtain ⟨hlt, -⟩ := List.getElem?_eq_some_iff.1 hv
  rw [Finset.mem_filter, Finset.mem_range, getElem?_commitOf, hv]
  refine ⟨by simpa [commitOf] using hlt, ?_⟩
  simp [hcarried, carriedSig, Vote.flag, hblock, hb]

theorem goodSig_commitOf (hindex : ∀ (i : Nat) v, votes[i]? = some (some v) →
      v.validatorIndex.toInt = i)
    (h : ∀ o ∈ votes, ∀ v, o = some v → v.Precommit crypto.toCrypto chainID height round vals)
    {i : Nat} {sig : CommitSig} (hsig : (commitOf height round b votes).signatures[i]? = some sig)
    (hflag : sig.blockIDFlag ≠ .absent) :
    GoodSig crypto.toCrypto chainID vals (commitOf height round b votes) i sig := by
  rw [getElem?_commitOf] at hsig
  obtain ⟨o, ho, rfl⟩ := map_eq_some_iff.1 hsig
  cases hv : carried b o with
  | none =>
    rw [hv] at hflag
    exact absurd rfl hflag
  | some v =>
    obtain ⟨rfl, -⟩ := carried_eq_some.1 hv
    have hpre := h _ (mem_of_getElem? ho) v rfl
    have hidx := hindex i v ho
    obtain ⟨val, pk, bytes, hval, haddr, hpk, -, hbytes, hverify⟩ := hpre.signed
    rw [hidx, Int.toNat_natCast] at hval
    refine ⟨carriedSig_validateBasic fun w hw => h _ (mem_of_getElem? ho) w ?_, val, pk, bytes,
      hval, haddr.symm, hpk, ?_, hverify⟩
    · exact hw
    · rw [Commit.voteSignBytes, getVote_commitOf ho hv hpre hidx]
      exact hbytes

end Power

namespace VoteSet
variable {crypto : Crypto} {vs vs' : VoteSet} {vote : Vote} {i : Nat}

/-- The accounts of a vote set without conflicting votes: its tallies hold exactly the canonical
votes. -/
structure Undisputed (vs : VoteSet) : Prop extends Accounts vs where
  tallied : ∀ k bv i v, vs.votesByBlock k = some bv → slot bv.votes i = some v →
    slot vs.votes i = some v
  counted : ∀ i v, slot vs.votes i = some v →
    ∃ bv, vs.votesByBlock v.blockID.key = some bv ∧ slot bv.votes i = some v

theorem Undisputed.empty (chainID : Bytes) (height round : Int) (type : SignedMsgType)
    (valSet : BoundedValidatorSet) (ext : Bool) :
    (VoteSet.empty chainID height round type valSet ext).Undisputed where
  toAccounts := .empty chainID height round type valSet ext
  tallied := by simp [VoteSet.empty]
  counted := by simp [VoteSet.empty]

theorem Undisputed.tally (h : vs.Undisputed) (hnone : slot vs.votes i = none) (k : Bytes) :
    ∃ bv, vs.tally k none = some bv ∧ slot bv.votes i = none ∧
      (∀ j v, slot bv.votes j = some v → slot vs.votes j = some v) ∧
      ∀ bv', vs.votesByBlock k = some bv' → bv' = bv := by
  unfold VoteSet.tally
  cases hbv : vs.votesByBlock k with
  | none => exact ⟨_, rfl, by simp [BlockVotes.new], by simp [BlockVotes.new], by simp⟩
  | some bv =>
    refine ⟨bv, by simp, ?_, fun j v => h.tallied k bv j v hbv, by simp⟩
    rw [eq_none_iff_forall_ne_some]
    intro v hv
    rw [h.tallied k bv i v hbv hv] at hnone
    cases hnone

/-- Counting the first vote of a validator, whose slot is filled already, keeps the slots. -/
theorem Undisputed.count {bv : BlockVotes} {power : Int} (h : vs.Ledger)
    (htallied : ∀ k bv j v, vs.votesByBlock k = some bv → slot bv.votes j = some v →
      slot vs.votes j = some v)
    (hself : slot vs.votes i = some vote) (hacc : bv.Accounts vs.vals vote.blockID.key)
    (hi : i < vs.vals.size) (hfresh : slot bv.votes i = none)
    (hbv : ∀ j v, slot bv.votes j = some v → slot vs.votes j = some v)
    (hcount : vs.count vote vote.blockID.key i power bv = .ok vs') (hacc' : vs'.Accounts)
    (hcounted : vs'.AllTallied) : vs'.Undisputed ∧ ∀ j, slot vs'.votes j = slot vs.votes j := by
  have hslot := BlockVotes.slot_addVerifiedVote vote power (hacc.votes_length.symm ▸ hi) hfresh
  have hcanon : ∀ j v, slot (bv.addVerifiedVote vote i power).votes j = some v →
      slot vs.votes j = some v := by
    intro j v hj
    rw [hslot] at hj
    split_ifs at hj with hij
    · exact hij ▸ hj ▸ hself
    · exact hbv j v hj
  have hlen : (bv.addVerifiedVote vote i power).votes.length = vs.votes.length := by
    rw [length_addVerifiedVote, hacc.votes_length, h.votes_length]
  have hslots : ∀ j, slot vs'.votes j = slot vs.votes j := by
    intro j
    rcases count_cases hcount with rfl | ⟨-, rfl⟩
    · rfl
    · rw [slot_copyVotes hlen]
      cases hj : slot (bv.addVerifiedVote vote i power).votes j with
      | none => simp
      | some v => simp [hcanon j v hj]
  have htallies : vs'.votesByBlock = Function.update vs.votesByBlock vote.blockID.key
      (some (bv.addVerifiedVote vote i power)) := by
    rcases count_cases hcount with rfl | ⟨-, rfl⟩ <;> rfl
  refine ⟨⟨hacc', ?_, hcounted⟩, hslots⟩
  intro k bv' j v hbv' hj
  rw [hslots]
  rw [htallies] at hbv'
  exact forall_withTally (P := fun _ bv => slot bv.votes j = some v → slot vs.votes j = some v)
    (hcanon j v) (fun k bv => htallied k bv j v) hbv' hj

section Add
variable (h : vs.Undisputed) {height : Int64} {round : Int32}
  (hpre : vote.Precommit crypto vs.chainID height round vs.vals)
  (hindex : vote.validatorIndex.toInt = i) (hnone : slot vs.votes i = none)
  (htype : vs.signedMsgType = .precommit) (hheight : vs.height = height.toInt)
  (hround : vs.round = round.toInt) (hext : vs.extensionsEnabled = false)
include h hpre hindex hnone htype hheight hround hext

/-- A precommit of the set's height and round passes the checks if its validator has no vote. -/
theorem Undisputed.check : vs.check crypto vote = .ok (.verified i (vs.vals.power i)) := by
  have hbasic := Vote.basic_of_validateBasic hpre.basic
  obtain ⟨val, pk, bytes, hval, haddr, hpk, hkey, hbytes, hsig⟩ := hpre.signed
  rw [hindex, Int.toNat_natCast] at hval
  have hget : vs.valSet.1.getByIndex (i : Int) = some val := by
    simp [getByIndex, hval]
  have hlen : val.address.length ≠ 0 := by
    rw [← haddr, hbasic.address]
    decide
  have hfresh : vs.getVote i vote.blockID.key = none := by
    obtain ⟨bv, -, hbv, -, hold⟩ := h.tally hnone vote.blockID.key
    unfold getVote
    rw [hnone]
    cases hbv' : vs.votesByBlock vote.blockID.key with
    | none => rfl
    | some bv' =>
      rw [bind_some, hold bv' hbv']
      exact hbv
  have hverify : vs.verifyVote crypto vote val = .ok none :=
    (verifyVote_eq_ok hext).2 ⟨⟨pk, hpk, verify_eq_ok.2 ⟨hkey, bytes, hbytes, hsig⟩⟩,
      hpre.extension, hpre.extensionSignature⟩
  have hstep : ¬(vote.height.toInt ≠ vs.height ∨ vote.round.toInt ≠ vs.round ∨
      vote.type ≠ vs.signedMsgType) := by
    simp [hpre.height, hpre.round, hpre.type, hheight, hround, htype]
  simp only [VoteSet.check, hindex, if_neg (show ¬(i : Int) < 0 by omega), if_neg hlen,
    if_neg hstep, hget, haddr, ne_eq, not_true, if_false, Int.toNat_natCast, hfresh, hverify,
    power, hval, map_some, getD_some]

theorem Undisputed.addVote :
    ∃ vs', vs.addVote crypto vote = .ok (vs', true, none) ∧ vs'.Undisputed ∧ Extends vs vs' ∧
      ∀ j, slot vs'.votes j = if i = j then some vote else slot vs.votes j := by
  have hcheck := h.check hpre hindex hnone htype hheight hround hext
  have hv := verified_of_check hcheck
  have hrec : vs.record vote vote.blockID.key i (vs.vals.power i) =
      .ok ({ vs.setVote i vote with sum := vs.sum + vs.vals.power i }, none) := by
    simp only [record, hnone]
  have hlen : i < vs.votes.length := h.votes_length ▸ hv.lt_size
  have hslot : ∀ j, slot (vs.setVote i vote).votes j =
      if i = j then some vote else slot vs.votes j := fun j => slot_set _ hlen
  obtain ⟨hacc₁, -, -, hself⟩ := record_spec h.toAccounts hv hrec
  have hext₁ := record_extends (vs.valSet.2.power_nonneg i) hrec
  obtain ⟨bv, hbv, hfresh, hcanon, -⟩ := h.tally hnone vote.blockID.key
  set vs₁ : VoteSet := { vs.setVote i vote with sum := vs.sum + vs.vals.power i } with hvs₁
  have htally : vs₁.tally vote.blockID.key none = some bv := hbv
  obtain ⟨vs₂, hcount, hacc₂, -⟩ := count_spec hacc₁ hv.lt_size hv.index htally hfresh
    (by rw [hself (Or.inl rfl)]; rfl) fun _ => hself (Or.inl rfl)
  have hne : ∀ j v, slot vs.votes j = some v → slot vs₁.votes j = some v := by
    intro j v hj
    rw [hvs₁]
    dsimp only
    rw [hslot, if_neg, hj]
    rintro rfl
    rw [hnone] at hj
    cases hj
  obtain ⟨hund, hslots⟩ := Undisputed.count hacc₁.toLedger
    (fun k bv' j v hbv' hj => hne j v (h.tallied k bv' j v hbv' hj))
    (hself (Or.inl rfl)) (tally_spec hacc₁ htally).1 hv.lt_size hfresh
    (fun j v hj => hne j v (hcanon j v hj)) hcount hacc₂
    (AllTallied.added h.toAccounts h.counted hv hrec htally hcount)
  refine ⟨vs₂, ?_, hund, hext₁.trans (count_extends hcount), ?_⟩
  · have hcount' : vs₁.count vote vote.blockID.key i (vs.vals.power i) bv = .ok vs₂ := hcount
    simp [VoteSet.addVote, hcheck, addVerifiedVote, hrec, htally, hcount']
  · intro j
    rw [hslots]
    exact hslot j

end Add

/-- The majority of an undisputed set is the block with more than two thirds of the power. -/
theorem Undisputed.maj23_eq (h : vs.Undisputed) (hwf : vs.All fun v => v.blockID.WellFormed)
    {b : BlockID} (hb : b.WellFormed) {s : Finset Nat}
    (hs : ∀ i ∈ s, ∃ v, slot vs.votes i = some v ∧ v.blockID = b)
    (hpower : 2 * vs.vals.total < 3 * ∑ i ∈ s, vs.vals.power i) : vs.maj23 = some b := by
  have hnonneg : ∀ i, 0 ≤ vs.vals.power i := vs.valSet.2.power_nonneg
  have hmem : ∀ i ∈ s, ∃ bv v, vs.votesByBlock b.key = some bv ∧ slot bv.votes i = some v := by
    intro i hi
    obtain ⟨v, hv, rfl⟩ := hs i hi
    obtain ⟨bv, hbv, hv'⟩ := h.counted i v hv
    exact ⟨bv, v, hbv, hv'⟩
  have hne : s.Nonempty := by
    rw [Finset.nonempty_iff_ne_empty]
    rintro rfl
    have htotal : 0 ≤ vs.vals.total := vs.valSet.2.total_nonneg
    simp only [Finset.sum_empty] at hpower
    omega
  obtain ⟨i₀, hi₀⟩ := hne
  obtain ⟨bv, -, hbv, -⟩ := hmem i₀ hi₀
  have hsub : s ⊆ filled bv.votes := by
    intro i hi
    obtain ⟨bv', v, hbv', hv⟩ := hmem i hi
    obtain rfl := some.inj (hbv.symm.trans hbv')
    rw [mem_filled, hv]
    rfl
  have hmaj : vs.Majority bv := by
    rw [Majority, (h.blocks b.key bv hbv).sum]
    have := Finset.sum_le_sum_of_subset_of_nonneg hsub fun i _ _ => hnonneg i
    omega
  cases hb' : vs.maj23 with
  | none => exact absurd hmaj (h.minority hb' b.key bv hbv)
  | some b' =>
    -- two majorities share a validator, whose one vote is for both
    obtain ⟨bv', hbv', hmaj', hvotes⟩ := h.majority b' hb'
    have hacc := h.blocks b.key bv hbv
    have hacc' := h.blocks b'.key bv' hbv'
    rw [Majority, hacc.sum, total_eq_sum] at hmaj
    rw [Majority, hacc'.sum, total_eq_sum] at hmaj'
    have hpos : 3 * ∑ i ∈ (∅ : Finset Nat), vs.vals.power i <
        ∑ i ∈ Finset.range vs.vals.size, vs.vals.power i := by
      have := Finset.sum_le_sum_of_subset_of_nonneg (filled_subset_range hacc.votes_length)
        fun i _ _ => hnonneg i
      simp only [Finset.sum_empty]
      omega
    obtain ⟨j, hj, hj', -⟩ := exists_common_outside hnonneg
      (filled_subset_range hacc.votes_length) (filled_subset_range hacc'.votes_length) hmaj hmaj'
      hpos
    obtain ⟨v, hv⟩ := isSome_iff_exists.1 (mem_filled.1 hj)
    obtain ⟨v', hv'⟩ := isSome_iff_exists.1 (mem_filled.1 hj')
    have hsame : v' = v :=
      some.inj ((hvotes j v' hv').symm.trans (h.tallied b.key bv j v hbv hv))
    obtain ⟨w, hw, rfl⟩ := hwf.maj23 b' hb'
    have hkey : w.blockID.key = b.key := by
      rw [← (hacc'.keyed j v' hv').1, hsame, (hacc.keyed j v hv).1]
    rw [hw.eq_of_key_eq hb hkey]

end VoteSet

section ToVoteSet
variable {crypto : Crypto} {chainID : Bytes} {height : Int64} {round : Int32}
  {valSet : BoundedValidatorSet} {b : BlockID} {votes : List (Option Vote)}

/-- The vote set that `ToVoteSet` starts from. -/
abbrev precommitSet (chainID : Bytes) (height : Int64) (round : Int32)
    (valSet : BoundedValidatorSet) : VoteSet :=
  .empty chainID height.toInt round.toInt .precommit valSet false

section Carried
variable (hindex : ∀ (i : Nat) v, votes[i]? = some (some v) → v.validatorIndex.toInt = i)
  (h : ∀ o ∈ votes, ∀ v, o = some v → v.Precommit crypto chainID height round valSet.1)
include hindex h

/-- The loop of `ToVoteSet` adds the votes that the commit carries, from any index on. -/
theorem addSigs_commitOf (sigs : List CommitSig) (idx : Nat) (vs : VoteSet)
    (hsigs : (commitOf height round b votes).signatures.drop idx = sigs) (hund : vs.Undisputed)
    (hext : (precommitSet chainID height round valSet).Extends vs)
    (hall : vs.All fun v => v.blockID.WellFormed)
    (hslots : ∀ j, slot vs.votes j = if j < idx then carried b (slot votes j) else none) :
    ∃ vs', (commitOf height round b votes).addSigs crypto sigs idx vs = .ok vs' ∧
      vs'.Undisputed ∧ (precommitSet chainID height round valSet).Extends vs' ∧
      (vs'.All fun v => v.blockID.WellFormed) ∧
      ∀ j, slot vs'.votes j = carried b (slot votes j) := by
  induction sigs generalizing idx vs with
  | nil =>
    refine ⟨vs, rfl, hund, hext, hall, fun j => ?_⟩
    have hlen : votes.length ≤ idx := by simpa [commitOf] using drop_eq_nil_iff.1 hsigs
    rw [hslots]
    split_ifs with hlt
    · rfl
    · rw [slot_of_length_le (by omega)]
      rfl
  | cons sig sigs ih =>
    have hlt : idx < votes.length := by
      by_contra hge
      rw [drop_eq_nil_of_le (by simpa [commitOf] using hge)] at hsigs
      cases hsigs
    have hsig : (commitOf height round b votes).signatures[idx]? = some sig := by
      rw [← head?_drop, hsigs, head?_cons]
    have hrest : (commitOf height round b votes).signatures.drop (idx + 1) = sigs := by
      rw [← tail_drop, hsigs, tail_cons]
    have hslot : votes[idx]? = some (slot votes idx) := by
      rw [slot, getD_eq_getElem?_getD, getElem?_eq_getElem hlt, getD_some]
    rw [getElem?_commitOf, hslot, map_some, some.injEq] at hsig
    have hnext : ∀ j, slot vs.votes j = (if j < idx + 1 then carried b (slot votes j) else none) ∨
        j = idx := by
      intro j
      rw [hslots]
      split_ifs <;> first | exact Or.inl rfl | (right; omega)
    cases hv : carried b (slot votes idx) with
    | none =>
      rw [hv] at hsig
      have habsent : sig.blockIDFlag = .absent := by rw [← hsig]; rfl
      rw [Commit.addSigs, if_pos habsent]
      refine ih (idx + 1) vs hrest hund hext hall fun j => ?_
      obtain hj | rfl := hnext j
      · exact hj
      · rw [hslots, if_neg (lt_irrefl _), if_pos (Nat.lt_succ_self _), hv]
    | some v =>
      obtain ⟨hvslot, -⟩ := carried_eq_some.1 hv
      rw [hv] at hsig
      have hpresent : sig.blockIDFlag ≠ .absent := by
        rw [← hsig, carriedSig, Vote.flag]
        split_ifs <;> simp
      have hpre := h _ (mem_of_getElem? hslot) v hvslot
      have hidx := hindex idx v (hslot.trans (congrArg some hvslot))
      have hnone : slot vs.votes idx = none := by rw [hslots, if_neg (lt_irrefl _)]
      have hpre' : v.Precommit crypto vs.chainID height round vs.vals := by
        rw [hext.chainID, VoteSet.vals, hext.valSet]
        exact hpre
      obtain ⟨vs', hadd, hund', hext', hslots'⟩ := hund.addVote hpre' hidx hnone hext.type
        hext.height hext.round hext.extensions
      have hwf : v.blockID.WellFormed :=
        BlockID.wellFormed_of_shape (Vote.basic_of_validateBasic hpre.basic).shape
      have hall' := (VoteSet.addVote_spec hund.toAccounts hadd).2.2 _ hall fun _ _ _ => hwf
      rw [Commit.addSigs, if_neg hpresent, getVote_commitOf hslot hv hpre hidx]
      simp only [hpre.basic, hadd]
      refine ih (idx + 1) vs' hrest hund' (hext.trans hext') hall' fun j => ?_
      rw [hslots']
      split_ifs with hij hj hj
      · rw [← hij, hv]
      · omega
      · rw [hslots, if_pos (by omega)]
      · rw [hslots, if_neg (by omega)]

theorem toVoteSet_commitOf (hheight : 1 ≤ height) :
    ∃ vs, (commitOf height round b votes).toVoteSet crypto chainID valSet = .ok vs ∧
      vs.Undisputed ∧ vs.valSet = valSet ∧ (vs.All fun v => v.blockID.WellFormed) ∧
      ∀ j, slot vs.votes j = carried b (slot votes j) := by
  have hpos : (1 : Int) ≤ height.toInt := Int64.le_iff_toInt_le.1 hheight
  have hslots : ∀ j, slot (precommitSet chainID height round valSet).votes j =
      if j < 0 then carried b (slot votes j) else none := by
    intro j
    simp [precommitSet, VoteSet.empty]
  obtain ⟨vs, hvs, hund, hext, hall, hcarried⟩ := addSigs_commitOf hindex h
    (commitOf height round b votes).signatures 0 (precommitSet chainID height round valSet)
    rfl (.empty ..) (.refl _) (.empty ..) hslots
  refine ⟨vs, ?_, hund, hext.valSet, hall, hcarried⟩
  have hne : (commitOf height round b votes).height.toInt ≠ 0 := by
    show height.toInt ≠ 0
    omega
  rw [Commit.toVoteSet, VoteSet.new, if_neg hne]
  exact hvs

end Carried

theorem majority_votes {vs : VoteSet} (hacc : vs.Accounts) (hvals : vs.valSet = valSet)
    (hall : vs.All (Vote.Precommit crypto chainID height round valSet.1))
    (hmaj : vs.maj23 = some b) :
    ∃ s : Finset Nat, (∀ i ∈ s, ∃ v, slot vs.votes i = some v ∧ v.blockID = b) ∧
      2 * valSet.1.total < 3 * ∑ i ∈ s, valSet.1.power i := by
  have hwf : ∀ {v : Vote}, v.Precommit crypto chainID height round valSet.1 →
      v.blockID.WellFormed := fun hv =>
    BlockID.wellFormed_of_shape (Vote.basic_of_validateBasic hv.basic).shape
  obtain ⟨bv, hbv, hpower, hvotes⟩ := hacc.majority b hmaj
  obtain ⟨w, hw, rfl⟩ := hall.maj23 b hmaj
  have hblock := hacc.blocks w.blockID.key bv hbv
  rw [VoteSet.Majority, hblock.sum, VoteSet.vals, hvals] at hpower
  refine ⟨filled bv.votes, ?_, hpower⟩
  intro i hi
  obtain ⟨v, hv⟩ := isSome_iff_exists.1 (mem_filled.1 hi)
  have hpre := hall.tallied w.blockID.key bv i v hbv hv
  exact ⟨v, hvotes i v hv, (hwf hpre).eq_of_key_eq (hwf hw) (hblock.keyed i v hv).1⟩

/-- A majority yields a verifiable commit: `MakeExtendedCommit` does not panic, `ToCommit` passes
`ValidateBasic` and `VerifyCommit`, and `ToVoteSet` gives the majority back. -/
theorem majority_makes_verifiable_commit (crypto : CompleteBatchCrypto)
    (chainID : Bytes) (height : Int64)
    (round : Int32) (valSet : BoundedValidatorSet) (ops : List VoteSet.Op) (ap : ABCIParams)
    (b : BlockID) (hheight : 1 ≤ height) (hap : ap.voteExtensionsEnabled height = some false)
    (hops : ∀ v, VoteSet.Op.addVote v ∈ ops → v.validateBasic = .ok ())
    (hmaj : (ops.foldl (VoteSet.apply crypto.toCrypto)
      (precommitSet chainID height round valSet)).maj23 = some b)
    (hb : b ≠ .zero) : ∃ ec, (ops.foldl (VoteSet.apply crypto.toCrypto)
        (precommitSet chainID height round valSet)).makeExtendedCommit ap = .ok ec ∧
      ec.toCommit.validateBasic = .ok () ∧
      verifyCommit crypto.toBatchCrypto chainID valSet.1 b height ec.toCommit = .ok () ∧
      ∃ vs, ec.toCommit.toVoteSet crypto.toCrypto chainID valSet = .ok vs ∧ vs.maj23 = some b := by
  obtain ⟨hacc, hext⟩ := VoteSet.foldl_apply_spec crypto.toCrypto ops
    (.empty chainID height.toInt round.toInt .precommit valSet false)
  have hall := VoteSet.foldl_apply_all crypto.toCrypto
    (P := Vote.Precommit crypto.toCrypto chainID height round valSet.1) ops
    (.empty chainID height.toInt round.toInt .precommit valSet false) (.empty ..)
    (by
      intro vs' hext' v i power hmem hv
      have hpre := hv.precommit (hops v hmem) hext'.type hext'.height hext'.round hext'.extensions
      rw [hext'.chainID, VoteSet.vals, hext'.valSet] at hpre
      exact hpre)
  generalize ops.foldl (VoteSet.apply crypto.toCrypto) (precommitSet chainID height round valSet) =
    vs at hmaj hacc hext hall ⊢
  have hvals : vs.valSet = valSet := hext.valSet
  have hvotes : ∀ o ∈ vs.votes, ∀ v, o = some v →
      v.Precommit crypto.toCrypto chainID height round valSet.1 := by
    rintro o ho v rfl
    obtain ⟨i, hi⟩ := getElem?_of_mem ho
    exact hall.votes i v (slot_eq_some.2 hi)
  have hindex : ∀ (i : Nat) v, vs.votes[i]? = some (some v) → v.validatorIndex.toInt = i :=
    fun i v hv => hacc.index i v (slot_eq_some.2 hv)
  obtain ⟨ec, hec, hcommit⟩ := VoteSet.makeExtendedCommit_eq hext.type hmaj hb hext.height
    hext.round hap hvotes
  obtain ⟨s, hs, hpower⟩ := majority_votes hacc hvals hall hmaj
  obtain ⟨w, hw, hwb⟩ := hall.maj23 b hmaj
  have hne : vs.votes ≠ [] := by
    intro hnil
    have hempty : s = ∅ := by
      rw [Finset.eq_empty_iff_forall_notMem]
      intro i hi
      obtain ⟨v, hv, -⟩ := hs i hi
      simp [slot, hnil] at hv
    have htotal : 0 ≤ valSet.1.total := valSet.2.total_nonneg
    rw [hempty, Finset.sum_empty] at hpower
    omega
  have hlist : ∀ i ∈ s, ∃ v, vs.votes[i]? = some (some v) ∧ v.blockID = b := by
    intro i hi
    obtain ⟨v, hv, hvb⟩ := hs i hi
    exact ⟨v, slot_eq_some.1 hv, hvb⟩
  have hsize : vs.votes.length = valSet.1.size := by
    rw [hacc.votes_length, VoteSet.vals, hvals]
  refine ⟨ec, hec, ?_, ?_, ?_⟩ <;> rw [hcommit]
  · exact commitOf_validateBasic hheight hb hw hwb hne hvotes
  · refine verifyCommit_complete valSet.2 (by simpa [commitOf] using hsize) ?_ ?_
    · intro i sig hsig hflag
      exact goodSig_commitOf hindex hvotes hsig hflag
    · have hcarried : ∑ i ∈ s, valSet.1.power i ≤
          commitPower valSet.1 (commitOf height round b vs.votes).signatures 0 :=
        sum_le_commitPower valSet.2 hlist hb
      omega
  · obtain ⟨vs', hvs', hund, hvals', hwf, hcarried⟩ := toVoteSet_commitOf hindex hvotes hheight
    refine ⟨vs', hvs', hund.maj23_eq hwf (s := s) ?_ ?_ ?_⟩
    · rw [← hwb]
      exact BlockID.wellFormed_of_shape (Vote.basic_of_validateBasic hw.basic).shape
    · intro i hi
      obtain ⟨v, hv, hvb⟩ := hs i hi
      exact ⟨v, (hcarried i).trans (carried_eq_some.2 ⟨hv, .inl hvb⟩), hvb⟩
    · rw [VoteSet.vals, hvals']
      exact hpower

def fourValidators : BoundedValidatorSet :=
  ⟨⟨[0, 1, 2, 3].map fun n =>
      ⟨List.replicate addressSize n, some ⟨.ed25519, List.replicate 32 n⟩, 1, 0⟩, none, true⟩,
    by decide, by decide⟩

def firstPrecommit (n : UInt8) (b : BlockID) : Vote :=
  ⟨.precommit, 1, 0, b, 0, List.replicate addressSize n, n.toInt8.toInt32, [1], [], []⟩

/-- Three validators precommit a block, one of them after another block, and the fourth one
precommits no block. -/
def equivocatedPrecommits : List VoteSet.Op :=
  [.addVote (firstPrecommit 0 (firstBlock 4)), .addVote (firstPrecommit 1 (firstBlock 2)),
    .addVote (firstPrecommit 3 .zero), .setPeerMaj23 [7] (firstBlock 2),
    .addVote (firstPrecommit 0 (firstBlock 2)), .addVote (firstPrecommit 2 (firstBlock 2))]

theorem equivocatedPrecommits_verifiable :
    ∃ ec, (equivocatedPrecommits.foldl (VoteSet.apply lenientCrypto.toCrypto)
        (precommitSet [1] 1 0 fourValidators)).makeExtendedCommit ⟨0⟩ = .ok ec ∧
      ec.toCommit.validateBasic = .ok () ∧
      verifyCommit lenientCrypto.toBatchCrypto [1] fourValidators.1 (firstBlock 2) 1 ec.toCommit =
        .ok () ∧ ∃ vs, ec.toCommit.toVoteSet lenientCrypto.toCrypto [1] fourValidators = .ok vs ∧
        vs.maj23 = some (firstBlock 2) :=
  majority_makes_verifiable_commit lenientCrypto [1] 1 0 fourValidators equivocatedPrecommits ⟨0⟩
    (firstBlock 2) (by decide) (by decide)
    (by
      intro v hv
      simp only [equivocatedPrecommits, mem_cons, VoteSet.Op.addVote.injEq, reduceCtorEq,
        not_mem_nil, or_false, false_or] at hv
      rcases hv with rfl | rfl | rfl | rfl | rfl <;> decide +kernel)
    (by decide +kernel) (by decide)

end ToVoteSet

end CelestiaCore
