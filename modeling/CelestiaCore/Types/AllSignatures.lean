import CelestiaCore.Types.TrustLevel
import CelestiaCore.Types.VerifyComplete

/-!
# Verification of all signatures

With `countAllSignatures` the light verifications check every vote whose validator is found.
-/
namespace CelestiaCore
open Wire ValidatorSet List

/-- The signatures for the block, from index `idx` on. -/
def votes (sigs : List CommitSig) (idx : Nat) : List (CommitSig × Nat) :=
  (sigs.zipIdx idx).filter (·.1.blockIDFlag = .commit)

/-- The validator that a vote is looked up as, with its index. -/
def voter (vals : ValidatorSet) (byIndex : Bool) (vote : CommitSig × Nat) :
    Option (Nat × Validator) :=
  if byIndex then
    (vals.validators[vote.2]?.filter (·.address = vote.1.validatorAddress)).map (vote.2, ·)
  else vals.getByAddress vote.1.validatorAddress

/-- The keys of the validators that are found for the votes verify them. These validators are there
for all votes, if they are looked up by index, and distinct otherwise, and have more than the needed
power. -/
structure Carry (crypto : BatchCrypto) (chainID : Bytes) (vals : ValidatorSet) (commit : Commit)
    (byIndex : Bool) (needed : Int) (votes : List (CommitSig × Nat)) (seen : List Nat) : Prop where
  found : byIndex = true → ∀ v ∈ votes, (voter vals byIndex v).isSome
  checked : ∀ v ∈ votes, ∀ p ∈ voter vals byIndex v, Checked crypto chainID commit v.2 v.1 p.2
  distinct : byIndex = false → ((votes.filterMap (voter vals byIndex)).map (·.1)).Nodup ∧
    ∀ p ∈ votes.filterMap (voter vals byIndex), p.1 ∉ seen
  power : needed < ((votes.filterMap (voter vals byIndex)).map (·.2.votingPower)).sum

section Carry
variable {crypto : BatchCrypto} {chainID : Bytes} {vals : ValidatorSet} {commit : Commit}
  {needed tallied : Int} {byIndex batch : Bool} {sig : CommitSig} {sigs : List CommitSig}
    {idx : Nat}
  {seenVals : List (Nat × Nat)} {vote : CommitSig × Nat} {vs : List (CommitSig × Nat)}
  {v : Nat × Validator} {seen : List Nat}

theorem mem_votes : (sig, idx) ∈ votes sigs 0 ↔
    sigs[idx]? = some sig ∧ sig.blockIDFlag = .commit := by
  simp [votes, mk_mem_zipIdx_iff_getElem?]

theorem votes_cons : votes (sig :: sigs) idx =
    if sig.blockIDFlag = .commit then (sig, idx) :: votes sigs (idx + 1)
    else votes sigs (idx + 1) := by
  simp [votes, filter_cons]

theorem lookUp_light {r : Option (Nat × Validator)} :
    lookUp vals (lightMode needed true byIndex) seenVals idx sig = .ok r ↔
      voter vals byIndex (sig, idx) = r ∧ (byIndex = true → r.isSome) ∧
        (byIndex = false → ∀ v ∈ r, v.1 ∉ seenVals.map (·.1)) := by
  cases byIndex with
  | true =>
    cases hval : vals.validators[idx]? with
    | none =>
      simp only [lookUp, lightMode, voter, hval]
      grind
    | some val =>
      simp only [lookUp, lightMode, voter, hval]
      grind
  | false =>
    cases hval : vals.getByAddress sig.validatorAddress with
    | none =>
      simp only [lookUp, lightMode, voter, hval]
      grind
    | some v =>
      cases hseen : seenVals.find? (·.1 = v.1) with
      | none =>
        simp only [lookUp, lightMode, voter, hval, hseen]
        grind [find?_eq_none]
      | some w =>
        simp only [lookUp, lightMode, voter, hval, hseen]
        grind

theorem see_light {valIdx : Nat} :
    (see (lightMode needed true byIndex) seenVals valIdx idx).map (·.1) =
      if byIndex then seenVals.map (·.1) else valIdx :: seenVals.map (·.1) := by
  cases byIndex <;> rfl

theorem carry_cons (hv : voter vals byIndex vote = some v) :
    Carry crypto chainID vals commit byIndex needed (vote :: vs) seen ↔
      Checked crypto chainID commit vote.2 vote.1 v.2 ∧ (byIndex = false → v.1 ∉ seen) ∧
        Carry crypto chainID vals commit byIndex (needed - v.2.votingPower) vs
          (if byIndex then seen else v.1 :: seen) := by
  constructor
  · rintro ⟨hfound, hchecked, hdistinct, hpower⟩
    exact ⟨by grind, by grind, by grind, by grind, by grind, by grind⟩
  · rintro ⟨hfirst, hnew, hfound, hchecked, hdistinct, hpower⟩
    exact ⟨by grind, by grind, by grind, by grind⟩

/-- A vote whose validator is not found is of no account, unless it is looked up by index. -/
theorem carry_stranger (hv : voter vals byIndex vote = none) :
    Carry crypto chainID vals commit byIndex needed (vote :: vs) seen ↔
      byIndex = false ∧ Carry crypto chainID vals commit byIndex needed vs seen := by
  constructor
  · rintro ⟨hfound, hchecked, hdistinct, hpower⟩
    exact ⟨by grind, by grind, by grind, by grind, by grind⟩
  · rintro ⟨hindex, hfound, hchecked, hdistinct, hpower⟩
    exact ⟨by grind, by grind, by grind, by grind⟩

theorem Accepts.carry {mode : VerifyMode} (hmode : mode = lightMode needed true byIndex)
    (h : Accepts crypto chainID vals commit mode batch sigs idx seenVals tallied) :
    Carry crypto chainID vals commit byIndex (needed - tallied) (votes sigs idx)
      (seenVals.map (·.1)) := by
  subst hmode
  induction h with
  | enough h => exact ⟨nofun, nofun, fun _ => ⟨nodup_nil, nofun⟩, sub_neg.2 h⟩
  | ignored hignore _ ih =>
    rw [votes_cons, if_neg (by simpa [lightMode] using hignore)]
    exact ih
  | stranger hcount _ hlook _ ih =>
    obtain ⟨hnone, hfound, -⟩ := lookUp_light.1 hlook
    rw [votes_cons, if_pos (by simpa [lightMode] using hcount), carry_stranger hnone]
    exact ⟨by simpa using hfound, ih⟩
  | last _ _ _ _ hsome => cases hsome
  | next hcount _ hlook hsig _ ih =>
    obtain ⟨hfound, -, hnew⟩ := lookUp_light.1 hlook
    rw [votes_cons, if_pos (by simpa [lightMode] using hcount), carry_cons hfound, sub_sub]
    rw [see_light] at ih
    exact ⟨hsig, fun hindex => hnew hindex _ rfl, ih⟩

theorem Carry.accepts (hform : ∀ sig ∈ sigs, FormChecked batch sig)
    (h : Carry crypto chainID vals commit byIndex (needed - tallied) (votes sigs idx)
      (seenVals.map (·.1))) :
    Accepts crypto chainID vals commit (lightMode needed true byIndex) batch sigs idx seenVals
      tallied := by
  induction sigs generalizing idx seenVals tallied with
  | nil => exact .enough (sub_neg.1 h.power)
  | cons sig sigs ih =>
    obtain ⟨hfirst, hrest⟩ := forall_mem_cons.1 hform
    rw [votes_cons] at h
    split_ifs at h with hcommit
    · have hcount : (lightMode needed true byIndex).ignoreSig sig = false := by
        simp [lightMode, hcommit]
      cases hv : voter vals byIndex (sig, idx) with
      | none =>
        obtain ⟨hindex, hcarry⟩ := (carry_stranger hv).1 h
        exact .stranger hcount hfirst (lookUp_light.2 ⟨hv, by simp [hindex], by simp⟩)
          (ih hrest hcarry)
      | some v =>
        obtain ⟨hsig, hnew, hcarry⟩ := (carry_cons hv).1 h
        rw [sub_sub] at hcarry
        refine .next hcount hfirst (lookUp_light.2 ⟨hv, fun _ => rfl, ?_⟩) hsig (ih hrest ?_)
        · rintro hindex _ ⟨⟩
          exact hnew hindex
        · rwa [see_light]
    · exact .ignored (by simpa [lightMode] using hcommit) (ih hrest h)

theorem carry_of_verifyCommitWith
    (h : verifyCommitWith crypto chainID vals commit (lightMode needed true byIndex) = .ok ()) :
    Carry crypto chainID vals commit byIndex needed (votes commit.signatures 0) [] := by
  obtain ⟨batch, -, haccepts⟩ := accepts_of_verifyCommitWith h
  simpa using haccepts.carry rfl

theorem verifyCommitWith_iff_carry {crypto : CompleteBatchCrypto} (hne : vals.validators ≠ [])
    (hform : ∀ sig ∈ commit.signatures, sig.validateBasic = .ok ()) :
    verifyCommitWith crypto.toBatchCrypto chainID vals commit (lightMode needed true byIndex) =
        .ok () ↔
      Carry crypto.toBatchCrypto chainID vals commit byIndex needed (votes commit.signatures 0)
        [] := by
  refine ⟨carry_of_verifyCommitWith, fun h => ?_⟩
  obtain ⟨batch, hbatch⟩ := shouldBatchVerify_ok hne commit
  refine Accepts.verifyCommitWith (Carry.accepts (fun sig hsig _ => hform sig hsig) ?_) hbatch
  simpa using h

end Carry

section Entry
variable {crypto : BatchCrypto} {chainID : Bytes} {vals : ValidatorSet} {commit : Commit}
    {idx : Nat}
  {sig : CommitSig}

/-- Every vote for the block is of the validator at its index, whose key verifies it. -/
theorem verifyCommitLightInternal_all {blockID : BlockID} {height : Int64}
    (h : verifyCommitLightInternal crypto chainID vals blockID height commit true = .ok ())
    (hsig : commit.signatures[idx]? = some sig) (hflag : sig.blockIDFlag = .commit) :
    ∃ val, vals.validators[idx]? = some val ∧ val.address = sig.validatorAddress ∧
      Checked crypto chainID commit idx sig val := by
  obtain ⟨-, total, -, h⟩ := verifyCommitLightInternal_eq_ok.1 h
  have hcarry := carry_of_verifyCommitWith h
  have hvote := mem_votes.2 ⟨hsig, hflag⟩
  obtain ⟨p, hp⟩ := Option.isSome_iff_exists.1 (hcarry.found rfl _ hvote)
  have hchecked := hcarry.checked _ hvote p hp
  obtain ⟨val, hval, rfl⟩ := Option.map_eq_some_iff.1 hp
  obtain ⟨hget, haddr⟩ := Option.filter_eq_some_iff.1 hval
  exact ⟨val, hget, of_decide_eq_true haddr, hchecked⟩

/-- Every vote for the block whose address is in the trusted set is verified by the key there. -/
theorem verifyCommitLightTrustingInternal_all {lvl : Fraction}
    (h : verifyCommitLightTrustingInternal crypto chainID vals commit lvl true = .ok ())
    (hsig : commit.signatures[idx]? = some sig) (hflag : sig.blockIDFlag = .commit) {valIdx : Nat}
    {val : Validator} (hval : vals.getByAddress sig.validatorAddress = some (valIdx, val)) :
    Checked crypto chainID commit idx sig val := by
  unfold verifyCommitLightTrustingInternal at h
  split at h
  · cases h
  · obtain ⟨total, -, h⟩ := except_bind_eq_ok.1 h
    split at h
    · cases h
    · have hcarry : Carry crypto chainID vals commit false _ _ _ := carry_of_verifyCommitWith h
      exact hcarry.checked _ (mem_votes.2 ⟨hsig, hflag⟩) _ hval

end Entry

end CelestiaCore
