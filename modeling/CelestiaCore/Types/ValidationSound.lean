import CelestiaCore.Types.Accepts

/-!
# Soundness of commit verification

A verification that returns nil has found distinct validators with more power than the threshold.
-/
namespace CelestiaCore
open Wire Quorum List Option

theorem ValidatorSet.foldlM_addPower_ok {vals : List Validator} {sum t : Int} (hsum : 0 ≤ sum)
    (hv : ∀ v ∈ vals, 0 ≤ v.votingPower) (h : vals.foldlM addPower sum = .ok t) :
    t = sum + (vals.map (·.votingPower)).sum ∧ (vals = [] ∨ t ≤ maxTotalVotingPower) := by
  induction vals generalizing sum with
  | nil =>
    simp only [foldlM_nil, pure, Except.pure, Except.ok.injEq] at h
    simp [h]
  | cons v vals ih =>
    have hv0 := hv v (by simp)
    rw [foldlM_cons] at h
    simp only [addPower, bind, Except.bind] at h
    split_ifs at h with hmax
    have hclip : safeAddClip sum v.votingPower = sum + v.votingPower := by
      simp only [safeAddClip, maxTotalVotingPower, maxInt64, minInt64] at hmax ⊢
      omega
    rw [hclip] at h hmax
    obtain ⟨ht, hle⟩ := ih (by omega) (fun w hw => hv w (mem_cons_of_mem _ hw)) h
    refine ⟨by rw [ht, map_cons, sum_cons, add_assoc], .inr ?_⟩
    rcases hle with rfl | hle
    · simp only [map_nil, sum_nil, add_zero] at ht
      omega
    · exact hle

theorem ValidatorSet.bounded_of_totalVotingPower {vals : ValidatorSet} {t : Int}
    (hv : ∀ v ∈ vals.validators, 0 ≤ v.votingPower) (h : vals.totalVotingPower = .ok t) :
    vals.Bounded ∧ t = vals.total := by
  obtain ⟨ht, hle⟩ := foldlM_addPower_ok le_rfl hv h
  have htotal : t = vals.total := by simpa [total] using ht
  refine ⟨⟨hv, ?_⟩, htotal⟩
  rcases hle with hnil | hle
  · simp [total, hnil, maxTotalVotingPower, maxInt64]
  · exact htotal ▸ hle

section Tallies
variable (chainID : Bytes) (vals : ValidatorSet) (commit : Commit) (mode : VerifyMode)

/-- Validator `i` has a signature in the commit for its block that `ok` accepts. -/
def SignedBy (ok : PubKey → Bytes → Bytes → Prop) (i : Nat) : Prop :=
  ∃ idx sig val pk signBytes, commit.signatures[idx]? = some sig ∧ sig.blockIDFlag = .commit ∧
    vals.validators[i]? = some val ∧ val.address = sig.validatorAddress ∧ val.pubKey = some pk ∧
    commit.voteSignBytes chainID idx = some signBytes ∧ ok pk signBytes sig.signature

/-- The tally before the signature at `idx` is the power of the distinct validators `s`. -/
structure Tallied (ok : PubKey → Bytes → Bytes → Prop) (seenVals : List (Nat × Nat)) (idx : Nat)
    (tallied : Int) (s : Finset Nat) : Prop where
  signed : ∀ i ∈ s, SignedBy chainID vals commit ok i
  sum : tallied = ∑ i ∈ s, vals.power i
  below : mode.lookUpByIndex = true → ∀ i ∈ s, i < idx
  seen : mode.lookUpByIndex = false → ∀ i ∈ s, i ∈ seenVals.map Prod.fst

end Tallies

section Lemmas
variable {chainID : Bytes} {vals : ValidatorSet} {commit : Commit} {mode : VerifyMode}
  {ok : PubKey → Bytes → Bytes → Prop} {seenVals : List (Nat × Nat)} {idx i : Nat}
  {tallied : Int} {s : Finset Nat} {sig : CommitSig} {val : Validator}

theorem SignedBy.lt_size (h : SignedBy chainID vals commit ok i) : i < vals.size := by
  obtain ⟨-, -, val, -, -, -, -, hval, -⟩ := h
  exact (List.getElem?_eq_some_iff.1 hval).1

theorem Tallied.empty : Tallied chainID vals commit mode ok [] 0 0 ∅ :=
  ⟨by simp, by simp, by simp, by simp⟩

theorem Tallied.skip (h : Tallied chainID vals commit mode ok seenVals idx tallied s) :
    Tallied chainID vals commit mode ok seenVals (idx + 1) tallied s :=
  ⟨h.signed, h.sum, fun hm i hi => (h.below hm i hi).trans (Nat.lt_succ_self _), h.seen⟩

theorem ValidatorSet.getByAddress_eq_some {address : Bytes}
    (h : vals.getByAddress address = some (i, val)) :
    vals.validators[i]? = some val ∧ val.address = address := by
  unfold getByAddress at h
  split at h
  · cases h
  next j hj =>
  obtain ⟨hlt, hp, -⟩ := findIdx?_eq_some_iff_getElem.1 hj
  simp only [getElem?_eq_getElem hlt, map_some, some.injEq, Prod.mk.injEq] at h
  obtain ⟨rfl, rfl⟩ := h
  exact ⟨getElem?_eq_getElem hlt, by simpa using hp⟩

theorem ValidatorSet.getByAddress_of_getElem (hnodup : (vals.validators.map (·.address)).Nodup)
    (hval : vals.validators[i]? = some val) : vals.getByAddress val.address = some (i, val) := by
  obtain ⟨hlt, rfl⟩ := List.getElem?_eq_some_iff.1 hval
  have hfind : vals.validators.findIdx? (·.address = vals.validators[i].address) = some i := by
    refine findIdx?_eq_some_iff_getElem.2 ⟨hlt, by simp, fun j hj hsame => ?_⟩
    have hjlt : j < vals.validators.length := hj.trans hlt
    have heq : j = i := (getElem?_inj (by simpa using hjlt) hnodup).1
      (by simpa [hjlt, hlt] using hsame)
    exact absurd hj (heq ▸ lt_irrefl _)
  simp only [getByAddress, hfind, hval, map_some]

/-- A validator that is looked up belongs to the signature and was not looked up before. -/
theorem lookUp_eq_some (h : lookUp vals mode seenVals idx sig = .ok (some (i, val))) :
    vals.validators[i]? = some val ∧ val.address = sig.validatorAddress ∧
      (mode.lookUpByIndex = true → i = idx) ∧
      (mode.lookUpByIndex = false → i ∉ seenVals.map Prod.fst) := by
  unfold lookUp at h
  split_ifs at h with hmode
  · split at h
    · cases h
    · next v hv =>
      split_ifs at h with haddr
      cases h
      exact ⟨hv, not_not.1 haddr, fun _ => rfl, fun hf => by simp [hmode] at hf⟩
  · split at h
    · cases h
    · next j v hv =>
      split at h
      · cases h
      next hnone =>
      cases h
      obtain ⟨hget, haddr⟩ := ValidatorSet.getByAddress_eq_some hv
      refine ⟨hget, haddr, fun ht => absurd ht hmode, ?_⟩
      rintro - hmem
      obtain ⟨p, hp, rfl⟩ := mem_map.1 hmem
      have := find?_eq_none.1 hnone p hp
      simp at this

theorem Tallied.add (h : Tallied chainID vals commit mode ok seenVals idx tallied s)
    (hlook : lookUp vals mode seenVals idx sig = .ok (some (i, val)))
    (hsigned : mode.countSig sig = true → SignedBy chainID vals commit ok i) :
    ∃ s', Tallied chainID vals commit mode ok (see mode seenVals i idx) (idx + 1)
      (addTally mode tallied sig val) s' := by
  obtain ⟨hval, -, hindex, hfresh⟩ := lookUp_eq_some hlook
  have hseen : ∀ j, j ∈ seenVals.map Prod.fst → j ∈ (see mode seenVals i idx).map Prod.fst := by
    intro j hj
    unfold see
    split_ifs
    · exact hj
    · exact mem_cons_of_mem _ hj
  by_cases hcount : mode.countSig sig = true
  · have hnot : i ∉ s := by
      intro hi
      by_cases hm : mode.lookUpByIndex = true
      · have := h.below hm i hi
        rw [hindex hm] at this
        omega
      · exact hfresh (by simpa using hm) (h.seen (by simpa using hm) i hi)
    have hpow : vals.power i = val.votingPower := by simp [ValidatorSet.power, hval]
    refine ⟨insert i s, ?_, ?_, ?_, ?_⟩
    · intro j hj
      rcases Finset.mem_insert.1 hj with rfl | hj
      · exact hsigned hcount
      · exact h.signed j hj
    · rw [addTally, if_pos hcount, Finset.sum_insert hnot, h.sum, hpow, add_comm]
    · intro hm j hj
      rcases Finset.mem_insert.1 hj with rfl | hj
      · rw [hindex hm]
        exact Nat.lt_succ_self _
      · exact (h.below hm j hj).trans (Nat.lt_succ_self _)
    · intro hm j hj
      rcases Finset.mem_insert.1 hj with rfl | hj
      · simp [see, hm]
      · exact hseen j (h.seen hm j hj)
  · refine ⟨s, h.signed, ?_, h.skip.below, fun hm j hj => hseen j (h.seen hm j hj)⟩
    rw [addTally, if_neg hcount, h.sum]

end Lemmas

section Sound
variable {crypto : BatchCrypto} {chainID : Bytes} {vals : ValidatorSet} {commit : Commit}
  {mode : VerifyMode}

def VerifyMode.CountsCommits (mode : VerifyMode) : Prop :=
  ∀ sig, mode.ignoreSig sig = false → mode.countSig sig = true → sig.blockIDFlag = .commit

theorem drop_eq_cons {sigs : List CommitSig} {sig : CommitSig} {idx : Nat}
    (h : commit.signatures.drop idx = sig :: sigs) :
    commit.signatures[idx]? = some sig ∧ commit.signatures.drop (idx + 1) = sigs := by
  refine ⟨?_, ?_⟩
  · rw [← head?_drop, h]
    rfl
  · rw [← drop_drop, h]
    rfl

theorem Accepts.sound {sigs : List CommitSig}
    {idx : Nat} {seenVals : List (Nat × Nat)} {tallied : Int}
    {batch : Bool} (h : Accepts crypto chainID vals commit mode batch sigs idx seenVals tallied)
    (hmode : mode.CountsCommits) {s : Finset Nat} (hdrop : commit.signatures.drop idx = sigs)
    (ht : Tallied chainID vals commit mode (fun pk b sg => crypto.verifySignature pk b sg = true)
      seenVals idx tallied s) : ∃ s', (∀ i ∈ s', SignedBy chainID vals commit
        (fun pk b sg => crypto.verifySignature pk b sg = true) i) ∧
      mode.votingPowerNeeded < ∑ i ∈ s', vals.power i := by
  -- a signature that is looked up and verified adds its validator to the tally
  have hadd : ∀ {sig sigs idx seenVals tallied valIdx val} {s : Finset Nat},
      commit.signatures.drop idx = sig :: sigs → mode.ignoreSig sig = false →
      lookUp vals mode seenVals idx sig = .ok (some (valIdx, val)) →
      Checked crypto chainID commit idx sig val →
      Tallied chainID vals commit mode (fun pk b sg => crypto.verifySignature pk b sg = true)
        seenVals idx tallied s →
      ∃ s', Tallied chainID vals commit mode (fun pk b sg => crypto.verifySignature pk b sg = true)
        (see mode seenVals valIdx idx) (idx + 1) (addTally mode tallied sig val) s' := by
    intro sig sigs idx seenVals tallied valIdx val s hdrop hignore hlook hsig ht
    obtain ⟨pk, signBytes, hpk, hbytes, hverify⟩ := hsig
    obtain ⟨hval, haddr, -, -⟩ := lookUp_eq_some hlook
    exact ht.add hlook fun hcount => ⟨idx, sig, val, pk, signBytes, (drop_eq_cons hdrop).1,
      hmode sig hignore hcount, hval, haddr, hpk, hbytes, hverify⟩
  induction h generalizing s with
  | enough h => exact ⟨s, ht.signed, ht.sum ▸ h⟩
  | ignored _ _ ih => exact ih (drop_eq_cons hdrop).2 ht.skip
  | stranger _ _ _ _ ih => exact ih (drop_eq_cons hdrop).2 ht.skip
  | last hignore _ hlook hsig _ h =>
    obtain ⟨s', hs'⟩ := hadd hdrop hignore hlook hsig ht
    exact ⟨s', hs'.signed, hs'.sum ▸ h⟩
  | next hignore _ hlook hsig _ ih =>
    obtain ⟨s', hs'⟩ := hadd hdrop hignore hlook hsig ht
    exact ih (drop_eq_cons hdrop).2 hs'

end Sound

end CelestiaCore
