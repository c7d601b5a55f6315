import CelestiaCore.Evidence.Verify
import CelestiaCore.Light.DetectorPanics
import CelestiaCore.Types.AllSignatures

/-!
# Which detected attacks a full node accepts

Evidence that the detector forms passes every check of a full node but those of the signatures.
-/
namespace CelestiaCore.EvidencePool
open Wire Light List

variable {validators : List (Option Validator)} {v : Validator}

section Accused
variable {crypto : BatchCrypto} {conflicted trusted : LightBlock} {vals : ValidatorSet}

def Keyed (crypto : BatchCrypto) (v : Validator) : Prop :=
  ∃ pk, v.pubKey = some pk ∧ crypto.address pk = v.address

theorem keyed_of_validateBasic (h : v.validateBasic crypto.toCrypto = .ok ()) : Keyed crypto v := by
  unfold Validator.validateBasic at h
  split at h
  · cases h
  case h_2 pk hpk =>
    split_ifs at h with hpower hsize haddr
    exact ⟨pk, hpk, (not_not.1 haddr).symm⟩

variable {x : Option Validator}

theorem mem_sortAccused {validators sorted : List (Option Validator)}
    (h : sortAccused validators = .ok sorted) : x ∈ sorted ↔ x ∈ validators := by
  unfold sortAccused at h
  split_ifs at h
  cases h
  rw [mem_append, mem_map, mem_filter]
  simp only [sortByVotingPower, mem_insertionSort, decide_eq_true_eq]
  cases x with
  | none => simp
  | some v => simp [reduceOption_mem_iff]

theorem getByAddress_mem {address : Bytes} {i : Nat}
    (h : vals.getByAddress address = some (i, v)) : v ∈ vals.validators :=
  mem_of_getElem? (ValidatorSet.getByAddress_eq_some h).1

theorem mem_lunaticSigners : x ∈ lunaticSigners conflicted vals ↔
    ∃ sig ∈ conflicted.commit.signatures, sig.blockIDFlag = .commit ∧
      ∃ i v, vals.getByAddress sig.validatorAddress = some (i, v) ∧ x = some v := by
  unfold lunaticSigners
  rw [mem_filterMap]
  refine exists_congr fun sig => and_congr_right fun _ => ?_
  split_ifs with hflag
  · exact iff_of_false (by simp) fun h => hflag h.1
  · simp [not_not.1 hflag, eq_comm]

theorem mem_of_mem_commonVotes {sigs trustedSigs : List CommitSig} {sig : CommitSig}
    (h : sig ∈ commonVotes sigs trustedSigs) : sig ∈ sigs ∧ sig.blockIDFlag = .commit := by
  obtain ⟨⟨a, b⟩, hab, rfl⟩ := mem_map.1 h
  obtain ⟨hzip, hflags⟩ := mem_filter.1 hab
  exact ⟨(of_mem_zip hzip).1, (of_decide_eq_true hflags).1⟩

/-- Who is accused: common validators that voted for a lunatic header, and otherwise those that
signed both commits of one round. -/
theorem mem_getByzantineValidators {trusted : SignedHeader}
    (h : getByzantineValidators conflicted vals trusted = .ok validators) : x ∈ validators ↔
      (conflictingHeaderIsInvalid conflicted trusted.header = true ∧
        ∃ sig ∈ conflicted.commit.signatures, sig.blockIDFlag = .commit ∧
          ∃ i v, vals.getByAddress sig.validatorAddress = some (i, v) ∧ x = some v) ∨
      (conflictingHeaderIsInvalid conflicted trusted.header = false ∧
        trusted.commit.round = conflicted.commit.round ∧
        ∃ sig ∈ commonVotes conflicted.commit.signatures trusted.commit.signatures,
          x = (conflicted.validatorSet.getByAddress sig.validatorAddress).map (·.2)) := by
  unfold getByzantineValidators at h
  split at h
  case isTrue hinvalid => simp [mem_sortAccused h, mem_lunaticSigners, hinvalid]
  case isFalse hvalid =>
    split at h
    case isTrue hround =>
      obtain ⟨accused, hdouble, hsort⟩ := except_bind_eq_ok.1 h
      rw [mem_sortAccused hsort, doubleSigners_ok hdouble, drop_zero, mem_map]
      simp [hvalid, hround, eq_comm]
    case isFalse hround =>
      cases h
      simp [hvalid, hround]

theorem checkAccused_self (h : ∀ x ∈ validators, ∃ v, x = some v ∧ Keyed crypto v) :
    checkAccused crypto validators validators = .ok () := by
  induction validators with
  | nil => rfl
  | cons x xs ih =>
    obtain ⟨v, rfl, pk, hpk, haddr⟩ := h x mem_cons_self
    have hrest := ih fun y hy => h y (mem_cons_of_mem _ hy)
    simp [checkAccused, hpk, haddr, hrest]

theorem getD_appended {α : Type} (l : List α) : (appended l).getD [] = l := by
  cases l <;> rfl

theorem appended_eq_none {α : Type} {l : List α} : appended l = none ↔ l = [] := by
  cases l <;> simp [appended]

end Accused

section Held
variable {cfg : Config} {conflicted trusted common : LightBlock} {ev : LightClientAttackEvidence}

theorem newLightClientAttackEvidence_fields
    (h : newLightClientAttackEvidence conflicted trusted common = .ok ev) :
    ev.conflictingBlock = conflicted ∧
      (heldBlock conflicted trusted common).validatorSet.totalVotingPower =
        .ok ev.totalVotingPower ∧
      ∃ validators, getByzantineValidators conflicted common.validatorSet trusted.toSignedHeader =
          .ok validators ∧ ev.byzantineValidators = appended validators := by
  unfold newLightClientAttackEvidence at h
  dsimp only at h
  cases htotal : (heldBlock conflicted trusted common).validatorSet.totalVotingPower with
  | error e => simp [htotal] at h
  | ok total =>
    cases hbyz : getByzantineValidators conflicted common.validatorSet
        trusted.toSignedHeader with
    | error e => simp [htotal, hbyz] at h
    | ok validators =>
      simp only [htotal, hbyz, ok_bind, Except.ok.injEq] at h
      subst h
      exact ⟨rfl, rfl, validators, rfl, rfl⟩

theorem getByzantineValidators_held :
    getByzantineValidators conflicted (heldBlock conflicted trusted common).validatorSet
      trusted.toSignedHeader =
        getByzantineValidators conflicted common.validatorSet trusted.toSignedHeader := by
  unfold getByzantineValidators heldBlock
  split_ifs <;> rfl

end Held

/-- The two checks that the light client has not made: that common validators with a third of the
power signed, if the common height is below the conflicting one, and all votes for the conflicting
block. -/
def AcceptsSignatures (cfg : Config) (conflicted trusted held : LightBlock) : Prop :=
  (held.height ≠ conflicted.height →
      verifyCommitLightTrustingAllSignatures cfg.crypto trusted.header.chainID held.validatorSet
        conflicted.commit defaultTrustLevel = .ok ()) ∧
    verifyCommitLightAllSignatures cfg.crypto trusted.header.chainID conflicted.validatorSet
      conflicted.commit.blockID conflicted.height conflicted.commit = .ok ()

theorem trustThreshold_third {total : Int} (hpos : 0 ≤ total) (hmax : total ≤ maxTotalVotingPower) :
    trustThreshold total defaultTrustLevel = some (total / 3) := by
  have hle : total ≤ maxInt64 := hmax.trans (by decide)
  have hmul : safeMul total 1 = some total := by
    rw [safeMul_of_pos hpos one_pos, mul_one, if_pos hle]
  have hthreshold : trustThreshold total defaultTrustLevel =
      (safeMul total 1).map fun product => wrap64 (product.tdiv 3) := rfl
  rw [hthreshold, hmul, Option.map_some, Int.tdiv_eq_ediv_of_nonneg hpos,
    wrap64_of_range (by omega) (by simp only [maxInt64] at hle; omega)]

/-- What the two checks ask of the signatures, with a batch verifier that accepts whatever verifies
signature by signature: the votes of the conflicting commit are of the validators at their indices,
verified by their keys and of more than two thirds of the power; and those of validators of the held
set are verified by the keys there and of distinct validators with more than a third of its power.
-/
theorem acceptsSignatures_iff {cfg : Config} {crypto : CompleteBatchCrypto}
    (hcrypto : cfg.crypto = crypto.toBatchCrypto) {conflicted held : LightBlock}
    (hconflicted : Decoded cfg conflicted) (hheld : Decoded cfg held) (trusted : LightBlock) :
    AcceptsSignatures cfg conflicted trusted held ↔
      (held.height ≠ conflicted.height →
        Carry cfg.crypto trusted.header.chainID held.validatorSet conflicted.commit false
          (held.validatorSet.total / 3) (votes conflicted.commit.signatures 0) []) ∧
      conflicted.validatorSet.size = conflicted.commit.signatures.length ∧
      Carry cfg.crypto trusted.header.chainID conflicted.validatorSet conflicted.commit true
        (conflicted.validatorSet.total * 2 / 3) (votes conflicted.commit.signatures 0) [] := by
  obtain ⟨chainID, hbasic⟩ := hconflicted.basic
  obtain ⟨hheight, -, hform⟩ := commit_of_validateBasic hbasic
  rw [AcceptsSignatures, hcrypto, ← verifyCommitWith_iff_carry hheld.valid.1 hform,
    ← verifyCommitWith_iff_carry hconflicted.valid.1 hform]
  refine and_congr (imp_congr_right fun _ => ?_) ?_
  · simp only [verifyCommitLightTrustingAllSignatures, verifyCommitLightTrustingInternal,
      totalOrPanic,
      hheld.bounded.totalVotingPower_eq, ok_bind,
      trustThreshold_third hheld.bounded.total_nonneg hheld.bounded.total_le]
    rfl
  · rw [verifyCommitLightAllSignatures, verifyCommitLightInternal_eq_ok]
    simp [verifyBasicValsAndCommit, totalOrPanic, hconflicted.bounded.totalVotingPower_eq, hheight]

section Accept
variable {cfg : Config} {blocks : Set LightBlock} {conflicted trusted common : LightBlock}
  {ev : LightClientAttackEvidence} {chainID : Bytes}

theorem keyed_of_lightBlock_validateBasic {crypto : BatchCrypto} {hs : Hashes} {b : LightBlock}
    (hbasic : b.validateBasic crypto.toCrypto hs chainID = .ok ())
    (hv : v ∈ b.validatorSet.validators) : Keyed crypto v := by
  unfold LightBlock.validateBasic at hbasic
  simp only [check_bind_eq_ok, mapError_eq_ok] at hbasic
  have hvals := hbasic.2.1
  unfold ValidatorSet.validateBasic at hvals
  split_ifs at hvals
  simp only [check_bind_eq_ok] at hvals
  obtain ⟨i, hi⟩ := mem_iff_getElem?.1 hv
  have hcheck := forM_ok hvals.1 (v, i) (by simpa [mem_zipIdx_iff_getElem?] using hi)
  exact keyed_of_validateBasic (mapError_eq_ok.1 hcheck)

theorem mem_validators_keyed (hblocks : CollisionFree cfg blocks) {b : LightBlock} (hb : b ∈ blocks)
    (hv : v ∈ b.validatorSet.validators) : Keyed cfg.crypto v := by
  obtain ⟨chainID, hbasic⟩ := (hblocks.decoded b hb).basic
  exact keyed_of_lightBlock_validateBasic hbasic hv

section Checked
variable (hblocks : CollisionFree cfg blocks) (hconflicted : conflicted ∈ blocks)
  (hcommon : common ∈ blocks)
  (hall : verifyCommitLightAllSignatures cfg.crypto chainID conflicted.validatorSet
    conflicted.commit.blockID conflicted.height conflicted.commit = .ok ())
include hblocks hconflicted hcommon hall

/-- All accused have keys once all votes are checked: each is then of the validator at its index. -/
theorem accused_keyed
    (h : getByzantineValidators conflicted common.validatorSet trusted.toSignedHeader =
      .ok validators) : ∀ x ∈ validators, ∃ v, x = some v ∧ Keyed cfg.crypto v := by
  intro x hx
  obtain ⟨-, sig, hsig, hflag, i, v, hv, rfl⟩ | ⟨-, -, sig, hsig, rfl⟩ :=
    (mem_getByzantineValidators h).1 hx
  · exact ⟨v, rfl, mem_validators_keyed hblocks hcommon (getByAddress_mem hv)⟩
  obtain ⟨hsig, hflag⟩ := mem_of_mem_commonVotes hsig
  obtain ⟨idx, hidx⟩ := mem_iff_getElem?.1 hsig
  obtain ⟨val, hval, haddr, -⟩ := verifyCommitLightInternal_all hall hidx hflag
  cases hget : conflicted.validatorSet.getByAddress sig.validatorAddress with
  | none =>
    exfalso
    unfold ValidatorSet.getByAddress at hget
    split at hget
    case h_1 hfind =>
      have hnot := List.findIdx?_eq_none_iff.1 hfind val (mem_of_getElem? hval)
      simp [haddr] at hnot
    case h_2 j hfind =>
      have hlt := (List.findIdx?_eq_some_iff_getElem.1 hfind).1
      rw [List.getElem?_eq_getElem hlt] at hget
      cases hget
  | some p =>
    obtain ⟨i, v⟩ := p
    exact ⟨v, rfl, mem_validators_keyed hblocks hconflicted (getByAddress_mem hget)⟩

theorem validateABCIEvidence_formed
    (hev : newLightClientAttackEvidence conflicted trusted common = .ok ev) :
    validateABCIEvidence cfg.crypto ev (heldBlock conflicted trusted common).validatorSet
      trusted.toSignedHeader = .ok () := by
  obtain ⟨rfl, htotal, validators, hbyz, hnamed⟩ := newLightClientAttackEvidence_fields hev
  have hself := checkAccused_self (accused_keyed hblocks hconflicted hcommon hall hbyz)
  have hpanic : totalOrPanic (heldBlock ev.conflictingBlock trusted common).validatorSet =
      .ok ev.totalVotingPower := by
    unfold totalOrPanic
    rw [htotal]
  unfold validateABCIEvidence
  rw [hpanic]
  simp only [bind, Except.bind, ne_eq, not_true, if_false, getByzantineValidators_held, hbyz,
    hnamed, getD_appended, appended_eq_none, and_not_self_iff]
  exact hself

end Checked

variable (cfg trusted) in
/-- A lunatic header is above the common height, so the first check is that of the signatures. -/
theorem verifyDerivation_eq_ok (hbelow : common.height < conflicted.height)
    (hconflicted : ev.conflictingBlock = conflicted) :
    verifyDerivation cfg.crypto ev (heldBlock conflicted trusted common).toSignedHeader
        trusted.toSignedHeader (heldBlock conflicted trusted common).validatorSet = .ok () ↔
      ((heldBlock conflicted trusted common).height ≠ conflicted.height →
        verifyCommitLightTrustingAllSignatures cfg.crypto trusted.header.chainID
          (heldBlock conflicted trusted common).validatorSet conflicted.commit
          defaultTrustLevel = .ok ()) := by
  subst hconflicted
  unfold verifyDerivation
  by_cases hheight : (heldBlock ev.conflictingBlock trusted common).height ≠
      ev.conflictingBlock.height
  · rw [if_pos hheight]
    exact ⟨fun h _ => h, fun h => h hheight⟩
  have hvalid : conflictingHeaderIsInvalid ev.conflictingBlock trusted.header = false := by
    by_contra hinvalid
    rw [heldBlock, if_pos (by simpa using hinvalid)] at hheight
    exact absurd (not_not.1 hheight) (Int64.ne_of_lt hbelow)
  rw [if_neg hheight, hvalid]
  simp [not_not.1 hheight]

theorem verifyConflict_eq_ok (hblocks : CollisionFree cfg blocks)
    (hconflicted : conflicted ∈ blocks)
    (htrusted : trusted ∈ blocks) {source : Source} {target : LightBlock}
    (hheights : ∀ n height b, height ≠ 0 → source n height = .ok b → b.height = height)
    (hdiverges : Diverges cfg source target trusted conflicted)
    (hev : ev.conflictingBlock = conflicted) :
    verifyConflict cfg.hashes ev trusted.toSignedHeader = .ok () := by
  subst hev
  have hpos : ev.conflictingBlock.height ≠ 0 := by
    obtain ⟨chainID, hbasic⟩ := (hblocks.decoded _ hconflicted).basic
    exact Ne.symm (Int64.ne_of_lt (height_pos_of_validateBasic hbasic))
  unfold verifyConflict
  rcases hdiverges with ⟨hhash, hat⟩ | ⟨hlower, htime⟩
  · have heq : trusted.height = ev.conflictingBlock.height := by
      rcases hat with ⟨-, heq⟩ | ⟨n, hn⟩
      · exact heq
      · exact hheights n _ _ hpos hn
    have hnot : ¬trusted.height < ev.conflictingBlock.height := by
      rw [heq]
      exact Int64.lt_irrefl
    rw [if_neg fun h => hnot h.1, if_neg hhash]
  · have hhash : trusted.hash cfg.hashes ≠ ev.conflictingBlock.hash cfg.hashes := by
      intro heq
      have hheader := hblocks.header _ htrusted _ hconflicted heq
      exact Int64.ne_of_lt hlower (congrArg Header.height hheader)
    rw [if_neg fun h => absurd h.2 (not_lt.2 htime), if_neg hhash]

end Accept

/-- Evidence formed from an examined trace is accepted by a full node that stores the common and the
trusted block exactly when its two signature checks pass. -/
theorem detected_accepted_iff (cfg : Config)
    (now : Time) (fuel asked n : Nat) (blocks : Set LightBlock)
    (hblocks : CollisionFree cfg blocks) (source : Source) (hsource : AnswersIn source blocks)
    (hheights : ∀ n height b, height ≠ 0 → source n height = .ok b → b.height = height)
    (trace sourceTrace : List LightBlock) (target conflicted trusted common : LightBlock)
    (hne : trace ≠ []) (hchain : VerifiedChain cfg now trace)
    (htrace : ∀ b ∈ trace, b ∈ blocks) (htarget : target ∈ blocks)
    (hexam : examineConflictingHeaderAgainstTrace cfg source now fuel target trace asked =
      some (.ok (sourceTrace, conflicted), n)) (hcommon : sourceTrace.head? = some common)
    (htrusted : sourceTrace.getLast? = some trusted) (ev : LightClientAttackEvidence)
    (hev : newLightClientAttackEvidence conflicted trusted common = .ok ev) :
    verifyLightClientAttack cfg.crypto cfg.hashes ev
        (heldBlock conflicted trusted common).toSignedHeader trusted.toSignedHeader
        (heldBlock conflicted trusted common).validatorSet = .ok () ↔
      AcceptsSignatures cfg conflicted trusted (heldBlock conflicted trusted common) := by
  obtain ⟨-, hok⟩ := examine_spec fuel hblocks hsource htarget asked hne hchain htrace
  have hexamined := hok _ _ _ hexam
  obtain ⟨common', hhead, hbelow⟩ := hexamined.common
  obtain rfl := Option.some.inj (hhead.symm.trans hcommon)
  obtain ⟨last, hlast, hdiverges⟩ := hexamined.diverges
  obtain rfl := Option.some.inj (hlast.symm.trans htrusted)
  have hconflicted := htrace _ (mem_of_mem_tail hexamined.divergent_mem)
  have hcommonMem := hexamined.mem _ (mem_of_mem_head? hhead)
  have htrustedMem := hexamined.mem _ (mem_of_getLast? hlast)
  obtain ⟨hblock, htotal, -⟩ := newLightClientAttackEvidence_fields hev
  have hpanic : totalOrPanic (heldBlock conflicted last common').validatorSet =
      .ok ev.totalVotingPower := by
    unfold totalOrPanic
    rw [htotal]
  have hderivation := verifyDerivation_eq_ok cfg last hbelow hblock
  have hconflict := verifyConflict_eq_ok hblocks hconflicted htrustedMem hheights hdiverges hblock
  unfold verifyLightClientAttack AcceptsSignatures
  rw [check_bind_eq_ok, hderivation, check_bind_eq_ok, hblock, hpanic]
  refine and_congr_right fun _ => ⟨fun h => h.1, fun hall => ⟨hall, ?_⟩⟩
  simp only [ok_bind, ne_eq, not_true, if_false, hconflict]
  exact validateABCIEvidence_formed hblocks hconflicted hcommonMem hall hev

section Examples

theorem forkSource_height (data third : UInt8) (n : Nat) (height : Int64) (b : LightBlock)
    (h : forkSource data third n height = .ok b) : b.height = height := by
  unfold forkSource forkedSource at h
  split_ifs at h with hone hsix
  · cases h
    exact hone.symm
  · cases h
    exact hsix.symm

/-- Two blocks at height 6 above a common block, with three valid signatures each. -/
theorem detected_accepted_iff_fork :
    CollisionFree forkConfig {forkBlock 1 0 3, forkBlock 6 1 3, forkBlock 6 2 3} ∧
      ∃ ev, newLightClientAttackEvidence (forkBlock 6 1 3) (forkBlock 6 2 3) (forkBlock 1 0 3) =
          .ok ev ∧
        verifyLightClientAttack batchingCrypto forkHashes ev (forkBlock 6 2 3).toSignedHeader
          (forkBlock 6 2 3).toSignedHeader forkValidators = .ok () := by
  have hfree : CollisionFree forkConfig {forkBlock 1 0 3, forkBlock 6 1 3, forkBlock 6 2 3} :=
    collisionFree_forked (decoded_fork 6 2 (.inr (.inr ⟨rfl, rfl⟩))) rfl (by decide +kernel)
      (by decide +kernel)
  refine ⟨hfree, ?_⟩
  have hmem : ∀ b ∈ [forkBlock 1 0 3, forkBlock 6 1 3],
      b ∈ ({forkBlock 1 0 3, forkBlock 6 1 3, forkBlock 6 2 3} : Set LightBlock) := by
    intro b hb
    simp only [mem_cons, not_mem_nil, or_false] at hb
    rcases hb with rfl | rfl
    · exact .inl rfl
    · exact .inr (.inl rfl)
  have hchain : VerifiedChain forkConfig 100 [forkBlock 1 0 3, forkBlock 6 1 3] := by
    unfold VerifiedChain
    decide +kernel
  have hexam : examineConflictingHeaderAgainstTrace forkConfig (forkSource 2 3) 100 5
      (forkBlock 6 2 3) [forkBlock 1 0 3, forkBlock 6 1 3] 1 =
        some (.ok ([forkBlock 1 0 3, forkBlock 6 2 3], forkBlock 6 1 3), 2) := by decide +kernel
  obtain ⟨ev, hev⟩ : ∃ ev, newLightClientAttackEvidence (forkBlock 6 1 3) (forkBlock 6 2 3)
      (forkBlock 1 0 3) = .ok ev := ⟨_, rfl⟩
  refine ⟨ev, hev, ?_⟩
  refine (detected_accepted_iff forkConfig 100 5 1 2 _ hfree (forkSource 2 3)
    (answersIn_forked (.inl rfl) (.inr (.inr rfl))) (fun n height b _ h =>
      forkSource_height 2 3 n height b h)
    [forkBlock 1 0 3, forkBlock 6 1 3] _ (forkBlock 6 2 3) _ _ _ (by simp) hchain hmem
    (.inr (.inr rfl)) hexam rfl rfl ev hev).2 ?_
  unfold AcceptsSignatures
  decide +kernel

/-- The block of the primary with a third signature that is not valid. -/
def garbledBlock : LightBlock :=
  { forkBlock 6 1 3 with commit := { (forkBlock 6 1 3).commit with
      signatures := (forkBlock 6 1 3).commit.signatures.set 2 ⟨.commit, .replicate 20 3, 6, [2]⟩ } }

/-- The light client verifies the block, forms the evidence, and the full node rejects it. -/
theorem detected_attack_rejected : VerifiedChain forkConfig 100 [forkBlock 1 0 3, garbledBlock] ∧
      garbledBlock.validateBasic batchingCrypto.toCrypto forkHashes [99] = .ok () ∧
      examineConflictingHeaderAgainstTrace forkConfig (forkSource 2 3) 100 5 (forkBlock 6 2 3)
        [forkBlock 1 0 3, garbledBlock] 1 =
          some (.ok ([forkBlock 1 0 3, forkBlock 6 2 3], garbledBlock), 2) ∧
      ∃ ev, newLightClientAttackEvidence garbledBlock (forkBlock 6 2 3) (forkBlock 1 0 3) = .ok ev ∧
        verifyLightClientAttack batchingCrypto forkHashes ev
          (heldBlock garbledBlock (forkBlock 6 2 3) (forkBlock 1 0 3)).toSignedHeader
          (forkBlock 6 2 3).toSignedHeader
          (heldBlock garbledBlock (forkBlock 6 2 3) (forkBlock 1 0 3)).validatorSet ≠ .ok () := by
  refine ⟨?_, by decide +kernel, by decide +kernel, _, rfl, by decide +kernel⟩
  unfold VerifiedChain
  decide +kernel

end Examples

end CelestiaCore.EvidencePool
