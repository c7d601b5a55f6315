import CelestiaCore.Types.VerifyComplete
import CelestiaCore.Types.AllSignatures

/-!
# Light verification after full verification

A verification that looks at fewer signatures, or stops earlier, accepts what a stricter one
accepts. -/
namespace CelestiaCore
open Wire

/-- `mode'` asks for no more than `mode`, which looks validators up by index. -/
structure Laxer (vals : ValidatorSet) (mode mode' : VerifyMode) : Prop where
  index : mode.lookUpByIndex = true
  distinct : mode'.lookUpByIndex = false → (vals.validators.map (·.address)).Nodup
  needed : mode'.votingPowerNeeded ≤ mode.votingPowerNeeded
  all : mode'.countAllSignatures = true → mode.countAllSignatures = true
  ignored : ∀ sig, mode.ignoreSig sig = true → mode'.ignoreSig sig = true
  uncounted : ∀ sig, mode.ignoreSig sig = false → mode'.ignoreSig sig = true →
    mode.countAllSignatures = true ∧ mode.countSig sig = false
  counted : ∀ sig, mode'.ignoreSig sig = false → mode'.countSig sig = mode.countSig sig

section Laxer
variable {crypto : CompleteBatchCrypto} {chainID : Bytes} {vals : ValidatorSet} {commit : Commit}
  {mode mode' : VerifyMode}

theorem Laxer.lookUp (hlax : Laxer vals mode mode') {seenVals seenVals' : List (Nat × Nat)}
    {idx valIdx : Nat} {sig : CommitSig} {val : Validator} (hseen : ∀ p ∈ seenVals', p.1 < idx)
    (hlook : lookUp vals mode seenVals idx sig = .ok (some (valIdx, val))) :
    CelestiaCore.lookUp vals mode' seenVals' idx sig = .ok (some (idx, val)) := by
  obtain ⟨hval, haddr, hidx, -⟩ := lookUp_eq_some hlook
  rw [hidx hlax.index] at hval
  by_cases hmode : mode'.lookUpByIndex = true
  · simp [CelestiaCore.lookUp, hmode, hval, haddr]
  · have hget := ValidatorSet.getByAddress_of_getElem (hlax.distinct (by simpa using hmode)) hval
    have hnew : seenVals'.find? (·.1 = idx) = none := by
      refine List.find?_eq_none.2 fun p hp => ?_
      simpa using (hseen p hp).ne
    simp [CelestiaCore.lookUp, hmode, ← haddr, hget, hnew]

theorem Laxer.addTally (hlax : Laxer vals mode mode') {sig : CommitSig}
    (hignore : mode'.ignoreSig sig = false) (tallied : Int) (val : Validator) :
    CelestiaCore.addTally mode' tallied sig val = CelestiaCore.addTally mode tallied sig val := by
  rw [CelestiaCore.addTally, hlax.counted sig hignore, CelestiaCore.addTally]

/-- The laxer verification goes through the same signatures, or fewer, with the same tally. -/
theorem Accepts.laxer (hlax : Laxer vals mode mode') {batch : Bool} {sigs : List CommitSig}
    {idx : Nat} {seenVals : List (Nat × Nat)} {tallied : Int}
    (h : Accepts crypto.toBatchCrypto chainID vals commit mode batch sigs idx seenVals tallied)
    (seenVals' : List (Nat × Nat)) (hseen : ∀ p ∈ seenVals', p.1 < idx) :
    Accepts crypto.toBatchCrypto chainID vals commit mode' batch sigs idx seenVals' tallied := by
  have hskip : ∀ {seenVals : List (Nat × Nat)} {idx : Nat}, (∀ p ∈ seenVals, p.1 < idx) →
      ∀ p ∈ seenVals, p.1 < idx + 1 := fun hseen p hp => (hseen p hp).trans (Nat.lt_succ_self _)
  induction h generalizing seenVals' with
  | enough h => exact .enough (hlax.needed.trans_lt h)
  | ignored hignore _ ih => exact .ignored (hlax.ignored _ hignore) (ih _ (hskip hseen))
  | stranger _ _ hlook =>
    simp only [CelestiaCore.lookUp, hlax.index, if_true] at hlook
    split at hlook
    · cases hlook
    · split at hlook <;> cases hlook
  | @last sig _ _ _ tallied _ val hignore hform hlook hsig hsome h =>
    cases hignore' : mode'.ignoreSig sig with
    | true => exact absurd (hlax.uncounted sig hignore hignore').1 (by simp [hsome])
    | false =>
      refine .last hignore' hform (hlax.lookUp hseen hlook) hsig ?_ ?_
      · simpa [hsome] using hlax.all
      · rw [hlax.addTally hignore']
        exact hlax.needed.trans_lt h
  | @next sig _ idx _ tallied _ val hignore hform hlook hsig _ ih =>
    cases hignore' : mode'.ignoreSig sig with
    | true =>
      have hsame : CelestiaCore.addTally mode tallied sig val = tallied := by
        simp [CelestiaCore.addTally, (hlax.uncounted sig hignore hignore').2]
      exact .ignored hignore' (hsame ▸ ih _ (hskip hseen))
    | false =>
      refine .next hignore' hform (hlax.lookUp hseen hlook) hsig ?_
      rw [hlax.addTally hignore']
      refine ih _ fun p hp => ?_
      unfold see at hp
      split_ifs at hp
      · exact hskip hseen p hp
      · rcases List.mem_cons.1 hp with rfl | hp
        · exact Nat.lt_succ_self _
        · exact hskip hseen p hp

theorem Laxer.verifyCommitWith (hlax : Laxer vals mode mode')
    (h : verifyCommitWith crypto.toBatchCrypto chainID vals commit mode = .ok ()) :
    CelestiaCore.verifyCommitWith crypto.toBatchCrypto chainID vals commit mode' = .ok () := by
  obtain ⟨batch, hbatch, haccepts⟩ := accepts_of_verifyCommitWith h
  exact (haccepts.laxer hlax [] nofun).verifyCommitWith hbatch

theorem laxer_verifyCommitMode (needed : Int) (all : Bool) :
    Laxer vals (verifyCommitMode needed) (lightMode needed all true) where
  index := rfl
  distinct := by simp [lightMode]
  needed := le_rfl
  all := fun _ => rfl
  ignored := fun sig habsent => by
    simp [lightMode, show sig.blockIDFlag = .absent by simpa [verifyCommitMode] using habsent]
  uncounted := fun sig _ hflag => ⟨rfl, by simpa [lightMode, verifyCommitMode] using hflag⟩
  counted := fun sig hflag => by simpa [lightMode, verifyCommitMode] using hflag

theorem laxer_lightMode {needed needed' : Int} {all all' byIndex : Bool}
    (hneeded : needed' ≤ needed)
    (hall : all' = true → all = true)
    (hdistinct : byIndex = false → (vals.validators.map (·.address)).Nodup) :
    Laxer vals (lightMode needed all true) (lightMode needed' all' byIndex) where
  index := rfl
  distinct := hdistinct
  needed := hneeded
  all := hall
  ignored := fun _ hflag => hflag
  uncounted := fun _ hno hflag => absurd (hno.symm.trans hflag) Bool.false_ne_true
  counted := fun _ _ => rfl

end Laxer

section Light
variable {crypto : CompleteBatchCrypto} {chainID : Bytes} {vals : ValidatorSet} {commit : Commit}
  {blockID : BlockID} {height : Int64}

theorem verifyCommitLight_of_verifyCommit
    (h : verifyCommit crypto.toBatchCrypto chainID vals blockID height commit = .ok ()) :
    verifyCommitLight crypto.toBatchCrypto chainID vals blockID height commit = .ok () := by
  obtain ⟨hbasic, total, htotal, hwith⟩ := verifyCommit_eq_ok.1 h
  exact verifyCommitLightInternal_eq_ok.2
    ⟨hbasic, total, htotal, (laxer_verifyCommitMode _ _).verifyCommitWith hwith⟩

theorem trustThreshold_le {total : Int} {lvl : Fraction} (hlvl : lvl = ⟨1, 3⟩ ∨ lvl = ⟨2, 3⟩)
    (hlo : 0 ≤ total) (hhi : total ≤ maxTotalVotingPower) :
    ∃ needed, trustThreshold total lvl = some needed ∧ needed ≤ total * 2 / 3 := by
  have hmax : total * 2 ≤ maxInt64 := by
    simp only [maxTotalVotingPower, maxInt64] at hhi ⊢
    omega
  have hvalid : validateTrustLevel lvl = .ok () := by
    rcases hlvl with rfl | rfl <;> decide
  obtain ⟨needed, hneeded⟩ : ∃ needed, trustThreshold total lvl = some needed := by
    rcases hlvl with rfl | rfl
    · have hmul : safeMul total 1 = some (total * 1) :=
        (safeMul_of_pos hlo (by decide)).trans (if_pos (by omega))
      exact ⟨_, congrArg (Option.map _) hmul⟩
    · have hmul : safeMul total 2 = some (total * 2) :=
        (safeMul_of_pos hlo (by decide)).trans (if_pos hmax)
      exact ⟨_, congrArg (Option.map _) hmul⟩
  refine ⟨needed, hneeded, ?_⟩
  rcases hlvl with rfl | rfl
  · have heq := trustThreshold_of_small hvalid hlo (by decide) hneeded
    simp only [UInt64.reduceToNat] at heq
    omega
  · have heq := trustThreshold_of_small hvalid hlo (by decide) hneeded
    simp only [UInt64.reduceToNat] at heq
    omega

end Light

/-- A commit that a full node accepts is accepted by the light verifications of the same set, by
index and by address. -/
theorem laxer_verification_accepts (crypto : CompleteBatchCrypto) (chainID : Bytes)
    (vals : ValidatorSet) (blockID : BlockID) (height : Int64) (commit : Commit)
    (hpower : ∀ v ∈ vals.validators, 0 ≤ v.votingPower)
    (hdistinct : (vals.validators.map (·.address)).Nodup) :
    (verifyCommit crypto.toBatchCrypto chainID vals blockID height commit = .ok () →
      verifyCommitLightInternal crypto.toBatchCrypto chainID vals blockID height commit true =
        .ok ()) ∧
    (verifyCommitLightInternal crypto.toBatchCrypto chainID vals blockID height commit true =
      .ok () →
      verifyCommitLight crypto.toBatchCrypto chainID vals blockID height commit = .ok ()) ∧
    ∀ lvl : Fraction, lvl = ⟨1, 3⟩ ∨ lvl = ⟨2, 3⟩ →
      verifyCommitLight crypto.toBatchCrypto chainID vals blockID height commit = .ok () →
      verifyCommitLightTrusting crypto.toBatchCrypto chainID vals commit lvl = .ok () := by
  refine ⟨fun h => ?_, fun h => ?_, fun lvl hlvl h => ?_⟩
  · obtain ⟨hbasic, total, htotal, hwith⟩ := verifyCommit_eq_ok.1 h
    exact verifyCommitLightInternal_eq_ok.2
      ⟨hbasic, total, htotal, (laxer_verifyCommitMode _ _).verifyCommitWith hwith⟩
  · obtain ⟨hbasic, total, htotal, hwith⟩ := verifyCommitLightInternal_eq_ok.1 h
    exact verifyCommitLightInternal_eq_ok.2 ⟨hbasic, total, htotal,
      (laxer_lightMode le_rfl (by simp) (by simp)).verifyCommitWith hwith⟩
  · obtain ⟨-, total, htotal, hwith⟩ := verifyCommitLightInternal_eq_ok.1 h
    obtain ⟨hbounded, rfl⟩ := totalOrPanic_ok hpower htotal
    obtain ⟨needed, hneeded, hle⟩ :=
      trustThreshold_le hlvl hbounded.total_nonneg hbounded.total_le
    have hden : lvl.denominator ≠ 0 := by
      rcases hlvl with rfl | rfl <;> decide
    simp only [verifyCommitLightTrusting, verifyCommitLightTrustingInternal, if_neg hden, htotal,
      hneeded, bind, Except.bind]
    exact (laxer_lightMode hle (by simp) fun _ => hdistinct).verifyCommitWith hwith

theorem laxer_verification_accepts_two :
    verifyCommitLightTrusting lenientCrypto.toBatchCrypto [1] (oneVoteEach .ed25519 [0, 1])
      (signedByAll [0, 1]) ⟨2, 3⟩ = .ok () :=
  (laxer_verification_accepts lenientCrypto [1] (oneVoteEach .ed25519 [0, 1]) (firstBlock 2) 1
    (signedByAll [0, 1]) (by decide +kernel) (by decide +kernel)).2.2 _ (.inr rfl)
    (by decide +kernel)

/-- One address twice: by address its second vote is a double vote. -/
theorem repeated_address_rejected :
    verifyCommit lenientCrypto.toBatchCrypto [1] (oneVoteEach .ed25519 [0, 0]) (firstBlock 2) 1
      (signedByAll [0, 0]) = .ok () ∧
    verifyCommitLightTrusting lenientCrypto.toBatchCrypto [1] (oneVoteEach .ed25519 [0, 0])
      (signedByAll [0, 0]) ⟨2, 3⟩ ≠ .ok () := by
  decide +kernel

end CelestiaCore
