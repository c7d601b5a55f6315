import CelestiaCore.Types.Accepts

/-!
# Completeness of commit verification

`VerifyCommit` accepts commits whose signatures are good and have more than two thirds of the power.
-/
namespace CelestiaCore
open Wire ValidatorSet

section Complete
variable {crypto : CompleteBatchCrypto} {chainID : Bytes} {vals : ValidatorSet} {commit : Commit}

/-- The signature at `idx` is one that every verification accepts. -/
def GoodSig (crypto : Crypto) (chainID : Bytes) (vals : ValidatorSet) (commit : Commit) (idx : Nat)
    (sig : CommitSig) : Prop :=
  sig.validateBasic = .ok () ∧ ∃ val pk bytes, vals.validators[idx]? = some val ∧
    val.address = sig.validatorAddress ∧ val.pubKey = some pk ∧
    commit.voteSignBytes chainID idx = some bytes ∧
    crypto.verifySignature pk bytes sig.signature = true

/-- The power of the signatures for the block, from index `idx` on. -/
def commitPower (vals : ValidatorSet) : List CommitSig → Nat → Int
  | [], _ => 0
  | sig :: sigs, idx =>
    (if sig.blockIDFlag = .commit then vals.power idx else 0) + commitPower vals sigs (idx + 1)

theorem lookUp_of_index {needed : Int} {idx : Nat} {sig : CommitSig} {val : Validator}
    (hval : vals.validators[idx]? = some val) (haddr : val.address = sig.validatorAddress)
    (seenVals : List (Nat × Nat)) :
    lookUp vals (verifyCommitMode needed) seenVals idx sig = .ok (some (idx, val)) := by
  simp [lookUp, verifyCommitMode, hval, haddr]

theorem addTally_verifyCommitMode {needed tallied : Int} {idx : Nat} {sig : CommitSig}
    {val : Validator} (hval : vals.validators[idx]? = some val) :
    addTally (verifyCommitMode needed) tallied sig val =
      tallied + if sig.blockIDFlag = .commit then vals.power idx else 0 := by
  unfold addTally verifyCommitMode
  by_cases hflag : sig.blockIDFlag = .commit
  · simp [hflag, power, hval]
  · simp [hflag]

theorem commitPower_absent {sig : CommitSig} {sigs : List CommitSig} {idx : Nat}
    (h : sig.blockIDFlag = .absent) :
    commitPower vals (sig :: sigs) idx = commitPower vals sigs (idx + 1) := by
  simp [commitPower, h]

theorem accepts_of_good {needed : Int} (batch : Bool) (sigs : List CommitSig) (idx : Nat)
    (seenVals : List (Nat × Nat)) (tallied : Int)
    (hgood : ∀ j sig, sigs[j]? = some sig → sig.blockIDFlag ≠ .absent →
      GoodSig crypto.toCrypto chainID vals commit (idx + j) sig)
    (hpower : needed < tallied + commitPower vals sigs idx) :
    Accepts crypto.toBatchCrypto chainID vals commit
      (verifyCommitMode needed) batch sigs idx seenVals
      tallied := by
  induction sigs generalizing idx seenVals tallied with
  | nil =>
    rw [commitPower, add_zero] at hpower
    exact .enough hpower
  | cons sig sigs ih =>
    have hrest : ∀ j s, sigs[j]? = some s → s.blockIDFlag ≠ .absent →
        GoodSig crypto.toCrypto chainID vals commit (idx + 1 + j) s := by
      intro j s hs hflag
      rw [Nat.add_assoc, Nat.add_comm 1 j]
      exact hgood (j + 1) s (by simpa using hs) hflag
    by_cases habsent : sig.blockIDFlag = .absent
    · rw [commitPower_absent habsent] at hpower
      exact .ignored (by simp [verifyCommitMode, habsent])
        (ih (idx + 1) seenVals tallied hrest hpower)
    · obtain ⟨hform, val, pk, bytes, hval, haddr, hpk, hbytes, hsig⟩ := hgood 0 sig rfl habsent
      refine .next (by simp [verifyCommitMode, habsent]) (fun _ => hform)
        (lookUp_of_index hval haddr seenVals)
        ⟨pk, bytes, hpk, hbytes, hsig⟩ (ih (idx + 1) _ _ hrest ?_)
      rw [addTally_verifyCommitMode hval, add_assoc]
      exact hpower

theorem compareProposerPriority_ok {res : Option (Nat × Validator)} (other : Nat × Validator)
    (h : ¬res.any (·.2.address = other.2.address) = true) :
    ∃ best, compareProposerPriority res other = .ok best := by
  unfold compareProposerPriority
  cases res with
  | none => exact ⟨other, rfl⟩
  | some v =>
    dsimp only
    split_ifs
    · exact ⟨v, rfl⟩
    · exact ⟨other, rfl⟩
    cases hcmp : List.compareLex compare v.2.address other.2.address with
    | lt => exact ⟨v, rfl⟩
    | gt => exact ⟨other, rfl⟩
    | eq =>
      have heq : v.2.address = other.2.address := Std.LawfulEqCmp.eq_of_compare hcmp
      exact absurd (by simp [heq]) h

theorem foldlM_findProposer (l : List Validator) (res : Option (Nat × Validator)) :
    ∃ r, l.foldlM (fun (res : Option (Nat × Validator)) v =>
        if res.any (·.2.address = v.address) then .ok res
        else (compareProposerPriority res (0, v)).map some) res =
          (.ok r : Except String (Option (Nat × Validator))) ∧
      (res.isSome ∨ l ≠ [] → r.isSome) := by
  induction l generalizing res with
  | nil => exact ⟨res, rfl, by simp⟩
  | cons v l ih =>
    rw [List.foldlM_cons]
    by_cases hsame : res.any (·.2.address = v.address) = true
    · obtain ⟨r, hr, hsome⟩ := ih res
      rw [if_pos hsame]
      refine ⟨r, hr, fun _ => hsome (.inl ?_)⟩
      cases res with
      | none => simp at hsame
      | some w => rfl
    · obtain ⟨best, hbest⟩ := compareProposerPriority_ok (0, v) hsame
      obtain ⟨r, hr, hsome⟩ := ih (some best)
      rw [if_neg hsame, hbest]
      exact ⟨r, hr, fun _ => hsome (.inl rfl)⟩

theorem ValidatorSet.getProposer_ok (hne : vals.validators ≠ []) :
    ∃ p, vals.getProposer = .ok (some p) := by
  unfold getProposer
  rw [if_neg hne]
  cases vals.proposer with
  | some p => exact ⟨p, rfl⟩
  | none =>
    obtain ⟨r, hr, hsome⟩ := foldlM_findProposer vals.validators none
    obtain ⟨p, rfl⟩ := Option.isSome_iff_exists.1 (hsome (.inr hne))
    exact ⟨p.2, by simp only [findProposer, hr]; rfl⟩

theorem shouldBatchVerify_ok (hne : vals.validators ≠ []) (commit : Commit) :
    ∃ batch, shouldBatchVerify vals commit = .ok batch := by
  unfold shouldBatchVerify
  split_ifs
  · exact ⟨false, rfl⟩
  · obtain ⟨p, hp⟩ := getProposer_ok hne
    exact ⟨_, by simp only [proposerKey, hp]; rfl⟩

/-- `VerifyCommit` accepts a commit of good signatures with more than two thirds of the power for
its block. -/
theorem verifyCommit_complete (hvals : vals.Bounded) (hlen : commit.signatures.length = vals.size)
    (hgood : ∀ idx sig, commit.signatures[idx]? = some sig → sig.blockIDFlag ≠ .absent →
      GoodSig crypto.toCrypto chainID vals commit idx sig)
    (hpower : 2 * vals.total < 3 * commitPower vals commit.signatures 0) :
    verifyCommit crypto.toBatchCrypto chainID vals commit.blockID commit.height commit =
      .ok () := by
  have hneeded : vals.total * 2 / 3 < 0 + commitPower vals commit.signatures 0 := by omega
  have hne : vals.validators ≠ [] := by
    intro hnil
    have hnone : commit.signatures = [] := by simpa [size, hnil] using hlen
    simp [hnone, hnil, commitPower, total] at hpower
  obtain ⟨batch, hbatch⟩ := shouldBatchVerify_ok hne commit
  have haccepts : Accepts crypto.toBatchCrypto chainID vals commit
      (verifyCommitMode (vals.total * 2 / 3)) batch commit.signatures 0 [] 0 :=
    accepts_of_good batch _ 0 [] 0 (by simpa using hgood) hneeded
  have hwith := haccepts.verifyCommitWith hbatch
  have hbasic : verifyBasicValsAndCommit vals commit commit.height commit.blockID = .ok () := by
    simp [verifyBasicValsAndCommit, hlen]
  simp only [verifyCommit, hbasic, totalOrPanic, hvals.totalVotingPower_eq, ok_bind]
  exact hwith

end Complete

end CelestiaCore
