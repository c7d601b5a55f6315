import CelestiaCore.Types.TrustLevel

/-!
# Commit verification does not panic

For a commit whose votes can be encoded and a valid set, the light verifications return.
-/
namespace CelestiaCore
open Wire

def Returns {α : Type} (x : Except VerifyFailure α) : Prop := ∀ msg, x ≠ .error (.panic msg)

theorem Returns.ok {α : Type} (a : α) : Returns (.ok a) := fun msg h => by cases h

theorem Returns.error {α : Type} {e : VerifyFailure} (he : ∀ msg, e ≠ .panic msg := by simp) :
    Returns (.error e : Except VerifyFailure α) := fun msg h => he msg (Except.error.inj h)

theorem Returns.bind {α β : Type} {x : Except VerifyFailure α} {f : α → Except VerifyFailure β}
    (hx : Returns x) (hf : ∀ a, x = .ok a → Returns (f a)) : Returns (x >>= f) := by
  cases x with
  | error e => exact .error fun msg he => hx msg (congrArg Except.error he)
  | ok a => exact hf a rfl

def Commit.Signable (commit : Commit) : Prop :=
  ∀ chainID idx sig, commit.signatures[idx]? = some sig → sig.blockIDFlag = .commit →
    commit.voteSignBytes chainID idx ≠ none

theorem Commit.signable_of_valid {commit : Commit} (hid : commit.blockID.validateBasic = .ok ())
    (htimes : ∀ sig ∈ commit.signatures, sig.timestamp.isValid = true) : commit.Signable := by
  intro chainID idx sig hsig hflag
  have htime := htimes sig (List.mem_of_getElem? hsig)
  simp [Commit.voteSignBytes, Commit.getVote, hsig, CommitSig.blockID, hflag,
    CelestiaCore.voteSignBytes,
    canonicalizeVote, canonicalizeBlockID, hid, CanonicalVote.marshalDelimited, htime]

section Loops
variable {crypto : BatchCrypto} {chainID : Bytes} {vals : ValidatorSet} {commit : Commit}
  {mode : VerifyMode} {seenVals : List (Nat × Nat)}

theorem lookUp_returns {idx : Nat} {sig : CommitSig}
    (hidx : mode.lookUpByIndex = true → idx < vals.size) :
    Returns (lookUp vals mode seenVals idx sig) := by
  unfold lookUp
  split
  case isTrue hmode =>
    have hlt : idx < vals.validators.length := hidx hmode
    rw [List.getElem?_eq_getElem hlt]
    dsimp only
    split
    · exact .error
    · exact .ok _
  case isFalse =>
    split
    · exact .ok _
    · split
      · exact .error
      · exact .ok _

variable (hsign : commit.Signable) (hignore : ∀ sig, mode.ignoreSig sig = false →
    sig.blockIDFlag = .commit)
  (hsize : mode.lookUpByIndex = true → commit.signatures.length = vals.size)
include hsign hignore hsize

theorem verifySingleLoop_returns {sigs : List CommitSig} {idx : Nat}
    {tallied : Int} (hsigs : commit.signatures.drop idx = sigs) :
    Returns (verifySingleLoop crypto chainID vals commit mode sigs idx seenVals tallied) := by
  induction sigs generalizing idx seenVals tallied with
  | nil =>
    unfold verifySingleLoop
    split_ifs
    · exact .error
    · exact .ok _
  | cons sig sigs ih =>
    obtain ⟨hget, hnext⟩ := drop_eq_cons hsigs
    unfold verifySingleLoop
    split
    · exact ih hnext
    case isFalse hnot =>
      have hlook : Returns (lookUp vals mode seenVals idx sig) :=
        lookUp_returns fun hmode => hsize hmode ▸ (List.getElem?_eq_some_iff.1 hget).1
      split
      · exact .error
      split
      case h_1 e he => exact .error fun msg h => hlook msg (h ▸ he)
      case h_2 => exact ih hnext
      case h_3 =>
        split
        · exact .error
        split
        case h_1 hnone =>
          exact absurd hnone (hsign chainID idx sig hget (hignore sig (by simpa using hnot)))
        case h_2 =>
          split
          · dsimp only
            split
            · exact .ok _
            · exact ih hnext
          · exact .error

theorem collectBatch_returns {sigs : List CommitSig} {idx : Nat}
    {tallied : Int} {batch : List BatchEntry} (hsigs : commit.signatures.drop idx = sigs) :
    Returns (collectBatch crypto chainID vals commit mode sigs idx seenVals tallied batch) := by
  induction sigs generalizing idx seenVals tallied batch with
  | nil => exact .ok _
  | cons sig sigs ih =>
    obtain ⟨hget, hnext⟩ := drop_eq_cons hsigs
    unfold collectBatch
    split
    · exact ih hnext
    case isFalse hnot =>
      have hlook : Returns (lookUp vals mode seenVals idx sig) :=
        lookUp_returns fun hmode => hsize hmode ▸ (List.getElem?_eq_some_iff.1 hget).1
      split
      case h_1 e he => exact .error fun msg h => hlook msg (h ▸ he)
      case h_2 => exact ih hnext
      case h_3 =>
        split
        case h_1 hnone =>
          exact absurd hnone (hsign chainID idx sig hget (hignore sig (by simpa using hnot)))
        case h_2 => exact .error
        case h_3 =>
          split
          · exact .error
          · dsimp only
            split
            · exact .ok _
            · exact ih hnext

theorem verifyCommitWith_returns (hproposer : vals.proposer.isSome = true)
    (hne : vals.validators ≠ []) : Returns (verifyCommitWith crypto chainID vals commit mode) := by
  obtain ⟨p, hp⟩ := Option.isSome_iff_exists.1 hproposer
  have hkey : proposerKey vals = .ok p.pubKey := by
    simp [proposerKey, ValidatorSet.getProposer, hne, hp]
  unfold verifyCommitWith
  refine .bind ?_ fun b _ => ?_
  · unfold shouldBatchVerify
    split
    · exact .ok _
    · rw [hkey]
      exact .ok _
  · split
    · unfold verifyCommitBatch
      rw [hkey]
      refine .bind (.ok _) fun pk _ => ?_
      split
      · exact .error
      refine .bind (collectBatch_returns hsign hignore hsize rfl) fun r _ => ?_
      dsimp only
      split_ifs
      · exact .error
      · exact .ok _
      · split <;> exact .error
    · exact verifySingleLoop_returns hsign hignore hsize rfl

end Loops

section Entry
variable {crypto : BatchCrypto} {chainID : Bytes} {vals : ValidatorSet} {commit : Commit}
  (hbounded : vals.Bounded) (hproposer : vals.proposer.isSome = true)
  (hne : vals.validators ≠ []) (hsign : commit.Signable)
include hbounded hproposer hne hsign

omit hproposer hne hsign in
theorem totalOrPanic_eq : totalOrPanic vals = .ok vals.total := by
  unfold totalOrPanic
  rw [hbounded.totalVotingPower_eq]

omit hbounded hproposer hne hsign in
theorem verifyBasicValsAndCommit_size {height : Int64} {blockID : BlockID}
    (h : verifyBasicValsAndCommit vals commit height blockID = .ok ()) :
    commit.signatures.length = vals.size := by
  unfold verifyBasicValsAndCommit at h
  split_ifs at h with hsize
  exact (not_not.1 hsize).symm

theorem verifyCommitLightInternal_returns {blockID : BlockID} {height : Int64} {all : Bool} :
    Returns (verifyCommitLightInternal crypto chainID vals blockID height commit all) := by
  unfold verifyCommitLightInternal
  refine .bind ?_ fun u hbasic => ?_
  · unfold verifyBasicValsAndCommit
    split_ifs <;> first | exact .ok _ | exact .error
  · rw [totalOrPanic_eq hbounded]
    have hsize := verifyBasicValsAndCommit_size hbasic
    exact verifyCommitWith_returns hsign (by simp) (fun _ => hsize) hproposer hne

theorem verifyCommitLightTrustingInternal_returns {lvl : Fraction} {all : Bool} :
    Returns (verifyCommitLightTrustingInternal crypto chainID vals commit lvl all) := by
  unfold verifyCommitLightTrustingInternal
  split
  · exact .error
  · simp only [totalOrPanic_eq hbounded, ok_bind]
    split
    · exact .error
    · exact verifyCommitWith_returns hsign (by simp) (by simp) hproposer hne

end Entry

end CelestiaCore
