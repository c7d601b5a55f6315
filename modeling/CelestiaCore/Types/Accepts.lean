import CelestiaCore.Types.Validation

/-!
# The signatures that a verification accepts

The loop over the signatures and the batch end well on the same commits.
-/
namespace CelestiaCore
open Wire List

/-- A batch verifier that accepts whatever verifies signature by signature. -/
structure CompleteBatchCrypto extends BatchCrypto where
  batchAdd_complete : ∀ pk bytes sig, verifySignature pk bytes sig = true →
    batchAdd pk bytes sig = .ok ()
  batchVerify_complete : ∀ batch, (∀ e ∈ batch, verifySignature e.1 e.2.1 e.2.2 = true) →
    (batchVerify batch).1 = true

/-- The key of a validator verifies the signature at an index of a commit. -/
def Checked (crypto : BatchCrypto) (chainID : Bytes) (commit : Commit) (idx : Nat)
    (sig : CommitSig) (val : Validator) : Prop :=
  ∃ pk signBytes, val.pubKey = some pk ∧ commit.voteSignBytes chainID idx = some signBytes ∧
    crypto.verifySignature pk signBytes sig.signature = true

/-- A batch does not check the form of a signature. -/
def FormChecked (batch : Bool) (sig : CommitSig) : Prop :=
  batch = false → sig.validateBasic = .ok ()

section Accepts
variable (crypto : BatchCrypto) (chainID : Bytes) (vals : ValidatorSet) (commit : Commit)
  (mode : VerifyMode) (batch : Bool)

/-- The signatures from index `idx` on pass, after those before it have given the validators in
`seenVals` and the power `tallied`. -/
inductive Accepts : List CommitSig → Nat → List (Nat × Nat) → Int → Prop
  | enough {idx seenVals tallied} (h : mode.votingPowerNeeded < tallied) :
    Accepts [] idx seenVals tallied
  | ignored {sig sigs idx seenVals tallied} (hignore : mode.ignoreSig sig = true)
    (h : Accepts sigs (idx + 1) seenVals tallied) : Accepts (sig :: sigs) idx seenVals tallied
  | stranger {sig sigs idx seenVals tallied} (hignore : mode.ignoreSig sig = false)
    (hform : FormChecked batch sig) (hlook : lookUp vals mode seenVals idx sig = .ok none)
    (h : Accepts sigs (idx + 1) seenVals tallied) : Accepts (sig :: sigs) idx seenVals tallied
  | last {sig sigs idx seenVals tallied valIdx val} (hignore : mode.ignoreSig sig = false)
    (hform : FormChecked batch sig)
    (hlook : lookUp vals mode seenVals idx sig = .ok (some (valIdx, val)))
    (hsig : Checked crypto chainID commit idx sig val) (hsome : mode.countAllSignatures = false)
    (h : mode.votingPowerNeeded < addTally mode tallied sig val) :
    Accepts (sig :: sigs) idx seenVals tallied
  | next {sig sigs idx seenVals tallied valIdx val} (hignore : mode.ignoreSig sig = false)
    (hform : FormChecked batch sig)
    (hlook : lookUp vals mode seenVals idx sig = .ok (some (valIdx, val)))
    (hsig : Checked crypto chainID commit idx sig val)
    (h : Accepts sigs (idx + 1) (see mode seenVals valIdx idx) (addTally mode tallied sig val)) :
    Accepts (sig :: sigs) idx seenVals tallied

end Accepts

section Loops
variable {crypto : BatchCrypto} {chainID : Bytes} {vals : ValidatorSet} {commit : Commit}
  {mode : VerifyMode} {sigs : List CommitSig} {idx : Nat} {seenVals : List (Nat × Nat)}
  {tallied : Int}

theorem accepts_of_single
    (h : verifySingleLoop crypto chainID vals commit mode sigs idx seenVals tallied = .ok ()) :
    Accepts crypto chainID vals commit mode false sigs idx seenVals tallied := by
  induction sigs generalizing idx seenVals tallied with
  | nil =>
    simp only [verifySingleLoop] at h
    split_ifs at h with hle
    exact .enough (not_le.1 hle)
  | cons sig sigs ih =>
    simp only [verifySingleLoop] at h
    split_ifs at h with hignore
    · exact .ignored hignore (ih h)
    have hcount : mode.ignoreSig sig = false := by simpa using hignore
    split at h
    · cases h
    next hvalid =>
    have hform : FormChecked false sig := fun _ => hvalid
    split at h
    · cases h
    · next hlook => exact .stranger hcount hform hlook (ih h)
    next valIdx val hlook =>
    split at h
    · cases h
    next pk hpk =>
    split at h
    · cases h
    next signBytes hbytes =>
    split_ifs at h with hverify hstop
    · exact .last hcount hform hlook ⟨pk, signBytes, hpk, hbytes, hverify⟩ hstop.1 hstop.2
    · exact .next hcount hform hlook ⟨pk, signBytes, hpk, hbytes, hverify⟩ (ih h)

theorem Accepts.single
    (h : Accepts crypto chainID vals commit mode false sigs idx seenVals tallied) :
    verifySingleLoop crypto chainID vals commit mode sigs idx seenVals tallied = .ok () := by
  induction h with
  | enough h => simp only [verifySingleLoop, if_neg (not_le.2 h)]
  | ignored hignore _ ih =>
    rw [verifySingleLoop, if_pos hignore]
    exact ih
  | stranger hignore hform hlook _ ih =>
    simp only [verifySingleLoop, hignore, Bool.false_eq_true, if_false, hform rfl, hlook]
    exact ih
  | last hignore hform hlook hsig hsome h =>
    obtain ⟨pk, signBytes, hpk, hbytes, hverify⟩ := hsig
    simp only [verifySingleLoop, hignore, Bool.false_eq_true, if_false, hform rfl, hlook,
      hpk, hbytes,
      hverify, if_true]
    exact if_pos ⟨hsome, h⟩
  | next hignore hform hlook hsig _ ih =>
    obtain ⟨pk, signBytes, hpk, hbytes, hverify⟩ := hsig
    simp only [verifySingleLoop, hignore, Bool.false_eq_true, if_false, hform rfl, hlook,
      hpk, hbytes,
      hverify, if_true]
    split
    · rfl
    · exact ih

theorem accepts_of_collectBatch {tallied' : Int} {batch batch' : List BatchEntry}
    (h : collectBatch crypto chainID vals commit mode sigs idx seenVals tallied batch =
      .ok (batch', tallied')) (hneeded : mode.votingPowerNeeded < tallied')
    (hverified : ∀ e ∈ batch', crypto.verifySignature e.pubKey e.signBytes e.signature = true) :
    Accepts crypto chainID vals commit mode true sigs idx seenVals tallied ∧
      ∀ e ∈ batch, e ∈ batch' := by
  have hform (sig : CommitSig) : FormChecked true sig := nofun
  induction sigs generalizing idx seenVals tallied batch with
  | nil =>
    simp only [collectBatch, Except.ok.injEq, Prod.mk.injEq] at h
    obtain ⟨rfl, rfl⟩ := h
    exact ⟨.enough hneeded, fun e he => he⟩
  | cons sig sigs ih =>
    simp only [collectBatch] at h
    split_ifs at h with hignore
    · exact ⟨.ignored hignore (ih h).1, (ih h).2⟩
    have hcount : mode.ignoreSig sig = false := by simpa using hignore
    split at h
    · cases h
    · next hlook => exact ⟨.stranger hcount (hform sig) hlook (ih h).1, (ih h).2⟩
    next valIdx val hlook =>
    split at h
    · cases h
    · cases h
    next signBytes pk hbytes hpk =>
    split at h
    · cases h
    -- the entry of this signature stays in the batch, so it is verified with the batch
    split_ifs at h with hstop
    · cases h
      have hentry := hverified ⟨idx, pk, signBytes, sig.signature⟩ (by simp)
      exact ⟨.last hcount (hform sig) hlook ⟨pk, signBytes, hpk, hbytes, hentry⟩ hstop.1 hstop.2,
        fun e he => mem_append_left _ he⟩
    · obtain ⟨hrest, hmem⟩ := ih h
      have hentry := hverified _ (hmem ⟨idx, pk, signBytes, sig.signature⟩ (by simp))
      exact ⟨.next hcount (hform sig) hlook ⟨pk, signBytes, hpk, hbytes, hentry⟩ hrest,
        fun e he => hmem e (mem_append_left _ he)⟩

theorem Accepts.collectBatch {crypto : CompleteBatchCrypto} {b : Bool}
    (h : Accepts crypto.toBatchCrypto chainID vals commit mode b sigs idx seenVals tallied)
    (batch : List BatchEntry)
    (hbatch : ∀ e ∈ batch, crypto.verifySignature e.pubKey e.signBytes e.signature = true) :
    ∃ batch' tallied', CelestiaCore.collectBatch crypto.toBatchCrypto chainID vals commit mode sigs
        idx seenVals tallied batch = .ok (batch', tallied') ∧ mode.votingPowerNeeded < tallied' ∧
      ∀ e ∈ batch', crypto.verifySignature e.pubKey e.signBytes e.signature = true := by
  induction h generalizing batch with
  | enough h => exact ⟨batch, _, rfl, h, hbatch⟩
  | ignored hignore _ ih =>
    rw [CelestiaCore.collectBatch, if_pos hignore]
    exact ih batch hbatch
  | stranger hignore _ hlook _ ih =>
    simp only [CelestiaCore.collectBatch, hignore, Bool.false_eq_true, if_false, hlook]
    exact ih batch hbatch
  | last hignore _ hlook hsig hsome h =>
    obtain ⟨pk, signBytes, hpk, hbytes, hverify⟩ := hsig
    simp only [CelestiaCore.collectBatch, hignore, Bool.false_eq_true, if_false, hlook, hpk, hbytes,
      crypto.batchAdd_complete _ _ _ hverify]
    rw [if_pos ⟨hsome, h⟩]
    exact ⟨_, _, rfl, h, forall_mem_append.2 ⟨hbatch, forall_mem_singleton.2 hverify⟩⟩
  | next hignore _ hlook hsig _ ih =>
    obtain ⟨pk, signBytes, hpk, hbytes, hverify⟩ := hsig
    simp only [CelestiaCore.collectBatch, hignore, Bool.false_eq_true, if_false, hlook, hpk, hbytes,
      crypto.batchAdd_complete _ _ _ hverify]
    split
    · next hstop =>
      exact ⟨_, _, rfl, hstop.2, forall_mem_append.2 ⟨hbatch, forall_mem_singleton.2 hverify⟩⟩
    · exact ih _ (forall_mem_append.2 ⟨hbatch, forall_mem_singleton.2 hverify⟩)

theorem accepts_of_verifyCommitBatch
    (h : verifyCommitBatch crypto chainID vals commit mode = .ok ()) :
    Accepts crypto chainID vals commit mode true commit.signatures 0 [] 0 := by
  simp only [verifyCommitBatch, bind, Except.bind] at h
  split at h
  · cases h
  split_ifs at h
  split at h
  · cases h
  next res hcollect =>
  obtain ⟨batch, tallied⟩ := res
  simp only at h
  split_ifs at h with hle hok
  · refine (accepts_of_collectBatch hcollect (not_le.1 hle) fun e he => ?_).1
    exact crypto.batch_sound _ hok _ (mem_map_of_mem he)
  · split at h <;> cases h

theorem shouldBatchVerify_eq_true (h : shouldBatchVerify vals commit = .ok true) :
    2 ≤ commit.signatures.length ∧ ∃ pk, proposerKey vals = .ok pk ∧
      pk.any (·.type.supportsBatchVerifier) = true := by
  unfold shouldBatchVerify at h
  split_ifs at h with hlen
  · cases h
  cases hkey : proposerKey vals with
  | error e =>
    rw [hkey] at h
    cases h
  | ok pk =>
    simp only [hkey, ok_bind, Except.ok.injEq, Bool.and_eq_true] at h
    exact ⟨not_lt.1 hlen, pk, rfl, h.1⟩

theorem Accepts.verifyCommitBatch {crypto : CompleteBatchCrypto} {b : Bool}
    (h : Accepts crypto.toBatchCrypto chainID vals commit mode b commit.signatures 0 [] 0)
    (hbatch : shouldBatchVerify vals commit = .ok true) :
    CelestiaCore.verifyCommitBatch crypto.toBatchCrypto chainID vals commit mode = .ok () := by
  obtain ⟨hlen, pk, hkey, hsupported⟩ := shouldBatchVerify_eq_true hbatch
  obtain ⟨batch, tallied, hcollect, hneeded, hverified⟩ :=
    h.collectBatch [] nofun
  have hverify : (crypto.batchVerify
      (batch.map fun e => (e.pubKey, e.signBytes, e.signature))).1 = true := by
    apply crypto.batchVerify_complete
    intro e he
    obtain ⟨e', he', rfl⟩ := mem_map.1 he
    exact hverified e' he'
  have husable : ¬(pk.any (·.type.supportsBatchVerifier) = false ∨
    commit.signatures.length < 2) := by
    rintro (hno | hshort)
    · rw [hsupported] at hno
      cases hno
    · exact absurd hlen (not_le.2 hshort)
  simp only [CelestiaCore.verifyCommitBatch, hkey, bind, Except.bind, if_neg husable, hcollect,
    if_neg (not_le.2 hneeded), if_pos hverify]

theorem accepts_of_verifyCommitWith
    (h : verifyCommitWith crypto chainID vals commit mode = .ok ()) :
    ∃ batch, shouldBatchVerify vals commit = .ok batch ∧
      Accepts crypto chainID vals commit mode batch commit.signatures 0 [] 0 := by
  simp only [verifyCommitWith, bind, Except.bind] at h
  split at h
  · cases h
  next batch hbatch =>
  cases batch with
  | true => exact ⟨true, hbatch, accepts_of_verifyCommitBatch h⟩
  | false => exact ⟨false, hbatch, accepts_of_single h⟩

theorem Accepts.verifyCommitWith {crypto : CompleteBatchCrypto} {batch : Bool}
    (h : Accepts crypto.toBatchCrypto chainID vals commit mode batch commit.signatures 0 [] 0)
    (hbatch : shouldBatchVerify vals commit = .ok batch) :
    CelestiaCore.verifyCommitWith crypto.toBatchCrypto chainID vals commit mode = .ok () := by
  simp only [CelestiaCore.verifyCommitWith, hbatch, ok_bind]
  cases batch with
  | true => exact h.verifyCommitBatch hbatch
  | false => exact h.single

theorem Accepts.form {batch batch' : Bool}
    (h : Accepts crypto chainID vals commit mode batch sigs idx seenVals tallied)
    (hform : ∀ sig ∈ sigs, mode.ignoreSig sig = false → FormChecked batch' sig) :
    Accepts crypto chainID vals commit mode batch' sigs idx seenVals tallied := by
  induction h with
  | enough h => exact .enough h
  | ignored hignore _ ih => exact .ignored hignore (ih (forall_mem_cons.1 hform).2)
  | stranger hignore _ hlook _ ih =>
    obtain ⟨hfirst, hrest⟩ := forall_mem_cons.1 hform
    exact .stranger hignore (hfirst hignore) hlook (ih hrest)
  | last hignore _ hlook hsig hsome h =>
    exact .last hignore (hform _ mem_cons_self hignore) hlook hsig hsome h
  | next hignore _ hlook hsig _ ih =>
    obtain ⟨hfirst, hrest⟩ := forall_mem_cons.1 hform
    exact .next hignore (hfirst hignore) hlook hsig (ih hrest)

end Loops

/-- What `VerifyCommit` counts: all signatures, those for the block towards the threshold. -/
def verifyCommitMode (needed : Int) : VerifyMode where
  votingPowerNeeded := needed
  ignoreSig := fun c => c.blockIDFlag = .absent
  countSig := fun c => c.blockIDFlag = .commit
  countAllSignatures := true
  lookUpByIndex := true

/-- What the light verifications count: the signatures for the block. -/
def lightMode (needed : Int) (all byIndex : Bool) : VerifyMode where
  votingPowerNeeded := needed
  ignoreSig := fun c => c.blockIDFlag ≠ .commit
  countSig := fun _ => true
  countAllSignatures := all
  lookUpByIndex := byIndex

section Entry
variable {crypto : BatchCrypto} {chainID : Bytes} {vals : ValidatorSet} {commit : Commit}
  {blockID : BlockID} {height : Int64}

theorem verifyCommit_eq_ok : verifyCommit crypto chainID vals blockID height commit = .ok () ↔
    verifyBasicValsAndCommit vals commit height blockID = .ok () ∧
      ∃ total, totalOrPanic vals = .ok total ∧
        verifyCommitWith crypto chainID vals commit (verifyCommitMode (total * 2 / 3)) = .ok () :=
  check_bind_eq_ok.trans (and_congr_right fun _ => except_bind_eq_ok)

theorem verifyCommitLightInternal_eq_ok {all : Bool} :
    verifyCommitLightInternal crypto chainID vals blockID height commit all = .ok () ↔
      verifyBasicValsAndCommit vals commit height blockID = .ok () ∧
      ∃ total, totalOrPanic vals = .ok total ∧
        verifyCommitWith crypto chainID vals commit (lightMode (total * 2 / 3) all true) = .ok () :=
  check_bind_eq_ok.trans (and_congr_right fun _ => except_bind_eq_ok)

end Entry

/-- Where a batch may be used, it accepts the commits that are accepted signature by signature. -/
theorem batch_iff_single (crypto : CompleteBatchCrypto) (chainID : Bytes) (vals : ValidatorSet)
    (commit : Commit) (mode : VerifyMode) (hbatch : shouldBatchVerify vals commit = .ok true)
    (hform : ∀ sig ∈ commit.signatures, mode.ignoreSig sig = false → sig.validateBasic = .ok ()) :
    verifyCommitBatch crypto.toBatchCrypto chainID vals commit mode = .ok () ↔
      verifyCommitSingle crypto.toBatchCrypto chainID vals commit mode = .ok () := by
  constructor
  · intro h
    exact ((accepts_of_verifyCommitBatch h).form fun sig hsig hignore _ =>
      hform sig hsig hignore).single
  · intro h
    exact (accepts_of_single h).verifyCommitBatch hbatch

/-- Cryptography whose every signature verifies; an address repeats the first byte of its key. -/
def lenientCrypto : CompleteBatchCrypto where
  address := fun pk => List.replicate addressSize (pk.bytes.headD 0)
  verifySignature := fun _ _ _ => true
  batchAdd := fun _ _ _ => .ok ()
  batchVerify := fun _ => (true, [])
  batch_sound := by simp
  batchAdd_complete := by simp
  batchVerify_complete := by simp

def firstBlock (n : UInt8) : BlockID :=
  ⟨List.replicate hashSize n, 1, List.replicate hashSize 3⟩

def oneVoteEach (type : KeyType) (ns : List UInt8) : ValidatorSet :=
  let vals := ns.map fun n =>
    ⟨List.replicate addressSize n, some ⟨type, List.replicate type.pubKeySize n⟩, 1, 0⟩
  ⟨vals, vals.head?, true⟩

def signedByAll (ns : List UInt8) : Commit :=
  ⟨1, 0, firstBlock 2, ns.map fun n => ⟨.commit, List.replicate addressSize n, 0, [1]⟩⟩

def majorityMode : VerifyMode := ⟨1, (·.blockIDFlag = .absent), (·.blockIDFlag = .commit),
    true, true⟩

theorem batch_iff_single_two :
    verifyCommitBatch lenientCrypto.toBatchCrypto [1] (oneVoteEach .ed25519 [0, 1])
        (signedByAll [0, 1]) majorityMode = .ok () ↔
      verifyCommitSingle lenientCrypto.toBatchCrypto [1] (oneVoteEach .ed25519 [0, 1])
        (signedByAll [0, 1]) majorityMode = .ok () :=
  batch_iff_single lenientCrypto [1] _ _ _ (by decide +kernel) (by decide +kernel)

/-- A set whose keys have no batch verifier. -/
theorem batch_unsupported :
    ValidatorSet.validateBasic lenientCrypto.toCrypto (oneVoteEach .secp256k1 [0, 1]) = .ok () ∧
    (signedByAll [0, 1]).validateBasic = .ok () ∧
    verifyCommitSingle lenientCrypto.toBatchCrypto [1] (oneVoteEach .secp256k1 [0, 1])
      (signedByAll [0, 1]) majorityMode = .ok () ∧
    verifyCommitBatch lenientCrypto.toBatchCrypto [1] (oneVoteEach .secp256k1 [0, 1])
      (signedByAll [0, 1]) majorityMode ≠ .ok () := by
  decide +kernel

end CelestiaCore
