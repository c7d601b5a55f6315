import CelestiaCore.Types.ValidationSound

/-!
# Thresholds of commit verification

`VerifyCommitLightTrusting` is sound exactly for the trust levels whose threshold does not come out
negative: a denominator of at least `2 ^ 63` is a negative `int64`.
-/
namespace CelestiaCore
open Wire Int Option Finset

section Sound
variable {crypto : BatchCrypto} {chainID : Bytes} {vals : ValidatorSet} {commit : Commit}
  {mode : VerifyMode}

/-- Distinct validators of the set with signatures that verify for the commit's block. -/
def Signers (crypto : BatchCrypto) (chainID : Bytes) (vals : ValidatorSet) (commit : Commit)
    (s : Finset Nat) : Prop :=
  ∀ i ∈ s, SignedBy chainID vals commit (fun pk b sg => crypto.verifySignature pk b sg = true) i

theorem Signers.subset_range {s : Finset Nat} (h : Signers crypto chainID vals commit s) :
    s ⊆ range vals.size := by
  intro i hi
  exact mem_range.2 (h i hi).lt_size

theorem Signers.sum_le_total {s : Finset Nat} (h : Signers crypto chainID vals commit s)
    (hb : vals.Bounded) : ∑ i ∈ s, vals.power i ≤ vals.total := by
  rw [ValidatorSet.total_eq_sum]
  exact sum_le_sum_of_subset_of_nonneg h.subset_range fun i _ _ => hb.power_nonneg i

theorem verifyCommitWith_sound (hmode : mode.CountsCommits)
    (h : verifyCommitWith crypto chainID vals commit mode = .ok ()) :
    ∃ s, Signers crypto chainID vals commit s ∧ mode.votingPowerNeeded < ∑ i ∈ s, vals.power i := by
  obtain ⟨_, _, haccepts⟩ := accepts_of_verifyCommitWith h
  exact haccepts.sound hmode rfl .empty

theorem verifyBasicValsAndCommit_ok {height : Int64} {blockID : BlockID}
    (h : verifyBasicValsAndCommit vals commit height blockID = .ok ()) :
    commit.height = height ∧ commit.blockID = blockID := by
  unfold verifyBasicValsAndCommit at h
  split_ifs at h with hsize hheight hid
  exact ⟨(not_not.1 hheight).symm, (not_not.1 hid).symm⟩

theorem totalOrPanic_ok {total : Int} (hv : ∀ v ∈ vals.validators, 0 ≤ v.votingPower)
    (h : totalOrPanic vals = .ok total) : vals.Bounded ∧ total = vals.total := by
  unfold totalOrPanic at h
  split at h
  · cases h
  · next t ht =>
    cases h
    exact ValidatorSet.bounded_of_totalVotingPower hv ht

theorem verifyCommit_sound {height : Int64} {blockID : BlockID}
    (hv : ∀ v ∈ vals.validators, 0 ≤ v.votingPower)
    (h : verifyCommit crypto chainID vals blockID height commit = .ok ()) :
    commit.height = height ∧ commit.blockID = blockID ∧
      ∃ s, Signers crypto chainID vals commit s ∧ 2 * vals.total < 3 * ∑ i ∈ s, vals.power i := by
  obtain ⟨hbasic, total, htotal, h⟩ := verifyCommit_eq_ok.1 h
  obtain ⟨-, rfl⟩ := totalOrPanic_ok hv htotal
  obtain ⟨hheight, hid⟩ := verifyBasicValsAndCommit_ok hbasic
  obtain ⟨s, hs, hsum⟩ := verifyCommitWith_sound (fun sig _ hc => by
    simpa [verifyCommitMode] using hc) h
  exact ⟨hheight, hid, s, hs, by simp only [verifyCommitMode] at hsum; omega⟩

theorem verifyCommitLight_sound {height : Int64} {blockID : BlockID}
    (hv : ∀ v ∈ vals.validators, 0 ≤ v.votingPower)
    (h : verifyCommitLight crypto chainID vals blockID height commit = .ok ()) :
    commit.height = height ∧ commit.blockID = blockID ∧
      ∃ s, Signers crypto chainID vals commit s ∧ 2 * vals.total < 3 * ∑ i ∈ s, vals.power i := by
  obtain ⟨hbasic, total, htotal, h⟩ := verifyCommitLightInternal_eq_ok.1 h
  obtain ⟨-, rfl⟩ := totalOrPanic_ok hv htotal
  obtain ⟨hheight, hid⟩ := verifyBasicValsAndCommit_ok hbasic
  obtain ⟨s, hs, hsum⟩ := verifyCommitWith_sound (fun sig hi _ => by simpa [lightMode] using hi) h
  exact ⟨hheight, hid, s, hs, by simp only [lightMode] at hsum; omega⟩

/-- Two commits that pass verification, of whatever blocks, have common signers with more than a
third of the power. -/
theorem common_signers {commit' : Commit} (hv : ∀ v ∈ vals.validators, 0 ≤ v.votingPower)
    (h : verifyCommitLight crypto chainID vals commit.blockID commit.height commit = .ok ())
    (h' : verifyCommitLight crypto chainID vals commit'.blockID commit'.height commit' = .ok ()) :
    ∃ s, Signers crypto chainID vals commit s ∧ Signers crypto chainID vals commit' s ∧
      vals.total < 3 * ∑ i ∈ s, vals.power i := by
  obtain ⟨-, _, htotal, -⟩ := verifyCommitLightInternal_eq_ok.1 h
  obtain ⟨-, -, s, hs, hsum⟩ := verifyCommitLight_sound hv h
  obtain ⟨-, -, t, ht, htsum⟩ := verifyCommitLight_sound hv h'
  have hunion := sum_le_sum_of_subset_of_nonneg (union_subset hs.subset_range ht.subset_range)
    fun i _ _ => (totalOrPanic_ok hv htotal).1.power_nonneg i
  have hsplit := @sum_union_inter _ _ s t _ vals.power _
  rw [← vals.total_eq_sum] at hunion
  exact ⟨s ∩ t, fun i hi => hs i (mem_inter.1 hi).1, fun i hi => ht i (mem_inter.1 hi).2,
    by linarith⟩

end Sound

section Thresholds

theorem toInt_toInt64 (x : UInt64) :
    x.toInt64.toInt = if x.toNat < 2 ^ 63 then (x.toNat : Int) else x.toNat - 2 ^ 64 := by
  have hx := x.toNat_lt
  have hbmod : x.toInt64.toInt = wrap64 x.toNat := by
    show x.toBitVec.toInt = _
    rw [BitVec.toInt_eq_toNat_bmod]
    rfl
  rw [hbmod, wrap64, bmod]
  omega

/-- `safeMul` of a non-negative number by a positive one overflows exactly above `maxInt64`. -/
theorem safeMul_of_pos {a b : Int} (ha : 0 ≤ a) (hb : 0 < b) :
    safeMul a b = if a * b ≤ maxInt64 then some (a * b) else none := by
  unfold safeMul
  by_cases ha0 : a = 0
  · simp [ha0, maxInt64]
  have hapos : 0 < a := by omega
  rw [if_neg (by omega)]
  simp only [if_neg (not_lt.2 ha), if_neg (not_lt.2 hb.le)]
  have hdiv : maxInt64.tdiv b < a ↔ ¬a * b ≤ maxInt64 := by
    rw [Int.tdiv_eq_ediv_of_nonneg (by decide), ← Int.le_ediv_iff_mul_le hb, not_le]
  by_cases hle : a * b ≤ maxInt64
  · rw [if_neg (by rw [hdiv]; exact not_not.2 hle), if_pos hle, wrap64_of_range]
    · have : 0 < a * b := mul_pos hapos hb
      omega
    · simp only [maxInt64] at hle
      omega
  · rw [if_pos (hdiv.2 hle), if_neg hle]

/-- A trust level with a negative threshold: the denominator is a negative `int64`, whose absolute
value the product with the total power reaches without overflow. -/
def NegativeThreshold (vals : ValidatorSet) (lvl : Fraction) : Prop :=
  lvl.numerator.toNat < 2 ^ 63 ∧ 2 ^ 63 ≤ lvl.denominator.toNat ∧
    vals.total * lvl.numerator.toNat ≤ maxInt64 ∧
    2 ^ 64 - lvl.denominator.toNat ≤ vals.total * lvl.numerator.toNat

instance (vals : ValidatorSet) (lvl : Fraction) : Decidable (NegativeThreshold vals lvl) := by
  unfold NegativeThreshold
  infer_instance

variable {lvl : Fraction} {total : Int}

theorem validateTrustLevel_ok (h : validateTrustLevel lvl = .ok ()) :
    lvl.numerator.toNat ≤ lvl.denominator.toNat ∧ 0 < lvl.denominator.toNat ∧
      lvl.denominator.toNat ≤ lvl.numerator.toNat * 3 := by
  unfold validateTrustLevel at h
  split_ifs at h with hbad
  push Not at hbad
  obtain ⟨hmul, hle, hne⟩ := hbad
  have hd := lvl.denominator.toNat_lt
  rw [UInt64.lt_iff_toNat_lt] at hmul hle
  have hne' : lvl.denominator.toNat ≠ 0 := by
    intro h0
    exact hne (UInt64.toNat_inj.1 (by simpa using h0))
  rw [UInt64.toNat_mul] at hmul
  have h3 : (3 : UInt64).toNat = 3 := rfl
  rw [h3] at hmul
  omega

theorem numerator_pos (h : validateTrustLevel lvl = .ok ()) : 0 < lvl.numerator.toNat := by
  obtain ⟨-, hpos, hle⟩ := validateTrustLevel_ok h
  omega

theorem trustThreshold_of_small (hlvl : validateTrustLevel lvl = .ok ()) (htotal : 0 ≤ total)
    (hd : lvl.denominator.toNat < 2 ^ 63) {needed : Int}
    (h : trustThreshold total lvl = some needed) :
    needed = total * lvl.numerator.toNat / lvl.denominator.toNat := by
  obtain ⟨hle, hpos, -⟩ := validateTrustLevel_ok hlvl
  have hn := numerator_pos hlvl
  have hnum : lvl.numerator.toInt64.toInt = lvl.numerator.toNat := by
    rw [toInt_toInt64, if_pos (by omega)]
  have hden : lvl.denominator.toInt64.toInt = lvl.denominator.toNat := by
    rw [toInt_toInt64, if_pos hd]
  simp only [trustThreshold, hnum, hden, safeMul_of_pos htotal (natCast_pos.2 hn)] at h
  split_ifs at h with hmax
  swap
  · cases h
  simp only [map_some, some.injEq] at h
  have hprod : 0 ≤ total * lvl.numerator.toNat := mul_nonneg htotal (natCast_nonneg _)
  have hquot : 0 ≤ total * lvl.numerator.toNat / lvl.denominator.toNat :=
    ediv_nonneg hprod (natCast_nonneg _)
  have hquotle : total * lvl.numerator.toNat / lvl.denominator.toNat ≤
      total * lvl.numerator.toNat := ediv_le_self _ hprod
  rw [tdiv_eq_ediv_of_nonneg hprod, wrap64_of_range (by omega)
    (by simp only [maxInt64] at hmax; omega)] at h
  exact h.symm

theorem trustThreshold_of_large (hn : 0 < lvl.numerator.toNat) (htotal : 0 ≤ total)
    (hnum : lvl.numerator.toNat < 2 ^ 63) (hd : 2 ^ 63 ≤ lvl.denominator.toNat) :
    trustThreshold total lvl =
      if total * lvl.numerator.toNat ≤ maxInt64 then
        some (-(total * lvl.numerator.toNat / (2 ^ 64 - lvl.denominator.toNat)))
      else none := by
  have hdlt := lvl.denominator.toNat_lt
  have hnumeq : lvl.numerator.toInt64.toInt = lvl.numerator.toNat := by
    rw [toInt_toInt64, if_pos hnum]
  have hdeneq : lvl.denominator.toInt64.toInt = -(2 ^ 64 - lvl.denominator.toNat : Int) := by
    rw [toInt_toInt64, if_neg (by omega)]
    omega
  simp only [trustThreshold, hnumeq, hdeneq, safeMul_of_pos htotal (natCast_pos.2 hn)]
  split_ifs with hmax
  · have hprod : 0 ≤ total * lvl.numerator.toNat := mul_nonneg htotal (natCast_nonneg _)
    have hquot : 0 ≤ total * lvl.numerator.toNat / (2 ^ 64 - lvl.denominator.toNat : Int) :=
      ediv_nonneg hprod (by omega)
    have hquotle : total * lvl.numerator.toNat / (2 ^ 64 - lvl.denominator.toNat : Int) ≤
        total * lvl.numerator.toNat := ediv_le_self _ hprod
    rw [map_some, Int.tdiv_neg, Int.tdiv_eq_ediv_of_nonneg hprod, wrap64_of_range]
    · simp only [maxInt64] at hmax
      omega
    · omega
  · rfl

theorem trustThreshold_of_negative (htotal : 0 ≤ total)
    (hle : lvl.numerator.toNat ≤ lvl.denominator.toNat) (hnum : 2 ^ 63 ≤ lvl.numerator.toNat)
    {needed : Int} (h : trustThreshold total lvl = some needed) : total ≤ needed := by
  have hdlt := lvl.denominator.toNat_lt
  have hnumeq : lvl.numerator.toInt64.toInt = -(2 ^ 64 - lvl.numerator.toNat : Int) := by
    rw [toInt_toInt64, if_neg (by omega)]
    omega
  have hdeneq : lvl.denominator.toInt64.toInt = -(2 ^ 64 - lvl.denominator.toNat : Int) := by
    rw [toInt_toInt64, if_neg (by omega)]
    omega
  obtain ⟨n, hn⟩ : ∃ n : Int, n = 2 ^ 64 - lvl.numerator.toNat := ⟨_, rfl⟩
  obtain ⟨d, hd⟩ : ∃ d : Int, d = 2 ^ 64 - lvl.denominator.toNat := ⟨_, rfl⟩
  simp only [trustThreshold, hnumeq, hdeneq, ← hn, ← hd] at h
  by_cases ht0 : total = 0
  · subst ht0
    simp only [safeMul, true_or, if_true, map_some, Int.zero_tdiv, some.injEq] at h
    rw [← h, wrap64_of_range (by norm_num) (by norm_num)]
  have htpos : 0 < total := by omega
  have hdpos : 0 < d := by omega
  have hdn : d ≤ n := by omega
  have hneg : -n < 0 := by omega
  unfold safeMul at h
  rw [if_neg (by omega)] at h
  simp only [if_pos hneg, neg_neg, if_neg (not_lt.2 htotal)] at h
  split_ifs at h with hover
  · cases h
  have hnmax : n ≤ maxInt64 := by
    by_contra hbig
    have hn63 : n = 2 ^ 63 := by simp only [maxInt64] at hbig; omega
    exact hover (by rw [hn63]; exact lt_of_eq_of_lt (by decide) htpos)
  have hwrapn : wrap64 n = n := by
    simp only [maxInt64] at hnmax
    exact wrap64_of_range (by omega) (by omega)
  have hprodle : total * n ≤ maxInt64 := by
    rw [hwrapn, tdiv_eq_ediv_of_nonneg (by decide), not_lt,
      Int.le_ediv_iff_mul_le (by omega)] at hover
    exact hover
  have hprodpos : 0 < total * n := mul_pos htpos (by omega)
  have hquot : total ≤ total * n / d := by
    rw [Int.le_ediv_iff_mul_le hdpos]
    exact mul_le_mul_of_nonneg_left hdn htotal
  have hquotle : total * n / d ≤ total * n := ediv_le_self _ hprodpos.le
  simp only [maxInt64] at hprodle
  have hwrapprod : wrap64 (total * -n) = -(total * n) := by
    rw [mul_neg, wrap64_of_range (by omega) (by omega)]
  rw [map_some, hwrapprod, Int.neg_tdiv, Int.tdiv_neg, neg_neg,
    tdiv_eq_ediv_of_nonneg hprodpos.le, wrap64_of_range (by omega) (by omega),
    some.injEq] at h
  omega

end Thresholds

section Trusting
variable {crypto : BatchCrypto} {chainID : Bytes} {vals : ValidatorSet} {lvl : Fraction}

/-- Signers with the power that a trust level asks for: the exact fraction, rounded down, plus
one. -/
def TrustedSigners (crypto : BatchCrypto) (chainID : Bytes) (vals : ValidatorSet)
    (commit : Commit) (lvl : Fraction) : Prop :=
  ∃ s, Signers crypto chainID vals commit s ∧
    vals.total * lvl.numerator.toNat / lvl.denominator.toNat + 1 ≤ ∑ i ∈ s, vals.power i

theorem threshold_sound {needed sum : Int} (hb : vals.Bounded)
    (hlvl : validateTrustLevel lvl = .ok ()) (hneg : ¬NegativeThreshold vals lvl)
    (hneeded : trustThreshold vals.total lvl = some needed) (hlt : needed < sum)
    (hsum : sum ≤ vals.total) :
    vals.total * lvl.numerator.toNat / lvl.denominator.toNat + 1 ≤ sum := by
  have htotal := hb.total_nonneg
  obtain ⟨hle, hpos, -⟩ := validateTrustLevel_ok hlvl
  rcases lt_or_ge lvl.denominator.toNat (2 ^ 63) with hd | hd
  · rw [← trustThreshold_of_small hlvl htotal hd hneeded]
    exact hlt
  rcases lt_or_ge lvl.numerator.toNat (2 ^ 63) with hn | hn
  · rw [trustThreshold_of_large (numerator_pos hlvl) htotal hn hd] at hneeded
    split_ifs at hneeded with hmax
    have hdlt := lvl.denominator.toNat_lt
    have hprod : 0 ≤ vals.total * lvl.numerator.toNat :=
      mul_nonneg htotal (natCast_nonneg _)
    have hsmall : vals.total * lvl.numerator.toNat < 2 ^ 64 - lvl.denominator.toNat := by
      by_contra hbig
      exact hneg ⟨hn, hd, hmax, not_lt.1 hbig⟩
    rw [ediv_eq_zero_of_lt hprod hsmall] at hneeded
    rw [ediv_eq_zero_of_lt hprod (by omega)]
    have := some.inj hneeded
    omega
  · have := trustThreshold_of_negative htotal hle hn hneeded
    omega

theorem verifyCommitLightTrusting_sound {commit : Commit}
    (hv : ∀ v ∈ vals.validators, 0 ≤ v.votingPower) (hlvl : validateTrustLevel lvl = .ok ())
    (hneg : ¬NegativeThreshold vals lvl)
    (h : verifyCommitLightTrusting crypto chainID vals commit lvl = .ok ()) :
    TrustedSigners crypto chainID vals commit lvl := by
  simp only [verifyCommitLightTrusting, verifyCommitLightTrustingInternal, bind, Except.bind] at h
  split_ifs at h
  split at h
  · cases h
  next total htotal =>
  obtain ⟨hb, rfl⟩ := totalOrPanic_ok hv htotal
  split at h
  · cases h
  next needed hneeded =>
  obtain ⟨s, hs, hsum⟩ := verifyCommitWith_sound (fun sig hi _ => by simpa using hi) h
  exact ⟨s, hs, threshold_sound hb hlvl hneg hneeded hsum (hs.sum_le_total hb)⟩

def emptyCommit : Commit := ⟨1, 0, .zero, []⟩

theorem not_trustedSigners_emptyCommit (hb : vals.Bounded) :
    ¬TrustedSigners crypto chainID vals emptyCommit lvl := by
  rintro ⟨s, hs, hsum⟩
  have hempty : s = ∅ := by
    rw [eq_empty_iff_forall_notMem]
    intro i hi
    obtain ⟨idx, sig, -, -, -, hsig, -⟩ := hs i hi
    simp [emptyCommit] at hsig
  have htotal := hb.total_nonneg
  have hquot : 0 ≤ vals.total * lvl.numerator.toNat / lvl.denominator.toNat :=
    ediv_nonneg (mul_nonneg htotal (natCast_nonneg _)) (natCast_nonneg _)
  rw [hempty, sum_empty] at hsum
  omega

theorem bounded_of_negativeThreshold (hv : ∀ v ∈ vals.validators, 0 ≤ v.votingPower)
    (hlvl : validateTrustLevel lvl = .ok ()) (hneg : NegativeThreshold vals lvl) :
    vals.Bounded := by
  obtain ⟨hn, hd, hmax, -⟩ := hneg
  obtain ⟨-, -, hthird⟩ := validateTrustLevel_ok hlvl
  refine ⟨hv, ?_⟩
  by_contra hbig
  have hnum : (3 : Int) ≤ lvl.numerator.toNat := by omega
  have htotal : 0 ≤ vals.total := by
    simp only [maxTotalVotingPower, maxInt64] at hbig
    omega
  have hmul : vals.total * 1024 ≤ vals.total * lvl.numerator.toNat :=
    mul_le_mul_of_nonneg_left (by omega) htotal
  simp only [maxTotalVotingPower, maxInt64] at hbig hmax
  omega

theorem verifyCommitLightTrusting_emptyCommit (hv : ∀ v ∈ vals.validators, 0 ≤ v.votingPower)
    (hlvl : validateTrustLevel lvl = .ok ()) (hneg : NegativeThreshold vals lvl) :
    verifyCommitLightTrusting crypto chainID vals emptyCommit lvl = .ok () := by
  have hb := bounded_of_negativeThreshold hv hlvl hneg
  obtain ⟨hn, hd, hmax, hge⟩ := hneg
  have hdlt := lvl.denominator.toNat_lt
  have htotal := hb.total_nonneg
  have hthreshold := trustThreshold_of_large (numerator_pos hlvl) htotal hn hd
  rw [if_pos hmax] at hthreshold
  have hquot : 1 ≤ vals.total * lvl.numerator.toNat / (2 ^ 64 - lvl.denominator.toNat : Int) := by
    rw [Int.le_ediv_iff_mul_le (by omega)]
    omega
  have hdne : lvl.denominator ≠ 0 := by
    intro h0
    rw [h0] at hd
    exact absurd hd (by decide)
  simp only [verifyCommitLightTrusting, verifyCommitLightTrustingInternal, if_neg hdne,
    totalOrPanic, hb.totalVotingPower_eq, hthreshold, bind, Except.bind, verifyCommitWith,
    shouldBatchVerify, emptyCommit, List.length_nil, Nat.ofNat_pos, if_true, verifyCommitSingle,
    verifySingleLoop, Bool.false_eq_true, if_false]
  rw [if_neg (by omega)]

end Trusting

theorem nonneg_of_validateBasic {crypto : Crypto} {vals : ValidatorSet}
    (h : vals.validateBasic crypto = .ok ()) : ∀ v ∈ vals.validators, 0 ≤ v.votingPower := by
  intro v hv
  have hok := (ValidatorSet.validateBasic_eq_ok h).2.1 v hv
  unfold Validator.validateBasic at hok
  split at hok
  · cases hok
  split_ifs at hok with hneg
  exact not_lt.1 hneg

/-- `VerifyCommit` and `VerifyCommitLight` are sound, and `VerifyCommitLightTrusting` for exactly
the trust levels without a negative threshold. -/
theorem verifyCommit_sound_iff (crypto : BatchCrypto)
    (chainID : Bytes) (vals : ValidatorSet) (lvl : Fraction)
    (hvals : vals.validateBasic crypto.toCrypto = .ok ()) (hlvl : validateTrustLevel lvl = .ok ()) :
    (∀ blockID height commit, verifyCommit crypto chainID vals blockID height commit = .ok () →
      commit.height = height ∧ commit.blockID = blockID ∧
        ∃ s, Signers crypto chainID vals commit s ∧ 2 * vals.total < 3 * ∑ i ∈ s, vals.power i) ∧
    (∀ blockID height commit, verifyCommitLight crypto chainID vals blockID height commit = .ok () →
      commit.height = height ∧ commit.blockID = blockID ∧
        ∃ s, Signers crypto chainID vals commit s ∧ 2 * vals.total < 3 * ∑ i ∈ s, vals.power i) ∧
    ((∀ commit, verifyCommitLightTrusting crypto chainID vals commit lvl = .ok () →
      TrustedSigners crypto chainID vals commit lvl) ↔ ¬NegativeThreshold vals lvl) := by
  have hv := nonneg_of_validateBasic hvals
  refine ⟨fun _ _ _ h => verifyCommit_sound hv h, fun _ _ _ h => verifyCommitLight_sound hv h, ?_⟩
  constructor
  · intro hsound hneg
    exact not_trustedSigners_emptyCommit (bounded_of_negativeThreshold hv hlvl hneg)
      (hsound emptyCommit (verifyCommitLightTrusting_emptyCommit hv hlvl hneg))
  · intro hneg commit h
    exact verifyCommitLightTrusting_sound hv hlvl hneg h

section Examples

/-- A key whose address is its first bytes and which accepts no signature. -/
def exampleCrypto : BatchCrypto where
  address pk := pk.bytes.take 20
  verifySignature _ _ _ := false
  batchAdd _ _ _ := .ok ()
  batchVerify _ := (false, [])
  batch_sound := by simp

def exampleValidator : Validator :=
  ⟨.replicate 20 1, some ⟨.ed25519, .replicate 32 1⟩, 1, 0⟩

def exampleVals : ValidatorSet := ⟨[exampleValidator], some exampleValidator, true⟩

theorem verifyCommit_sound_iff_one_third :
    exampleVals.validateBasic exampleCrypto.toCrypto = .ok () ∧
    ((∀ commit, verifyCommitLightTrusting exampleCrypto [99] exampleVals commit ⟨1, 3⟩ = .ok () →
      TrustedSigners exampleCrypto [99] exampleVals commit ⟨1, 3⟩) ↔
        ¬NegativeThreshold exampleVals ⟨1, 3⟩) :=
  ⟨by decide, (verifyCommit_sound_iff exampleCrypto [99] exampleVals ⟨1, 3⟩ (by decide)
    (by decide)).2.2⟩

/-- At the level `6148914691236517205 / 18446744073709551615`, one third, a set with one validator
of power 1 trusts a commit that nobody signed. -/
theorem verifyCommitLightTrusting_accepts_unsigned :
    let lvl : Fraction := ⟨6148914691236517205, 18446744073709551615⟩
    exampleVals.validateBasic exampleCrypto.toCrypto = .ok () ∧ validateTrustLevel lvl = .ok () ∧
      verifyCommitLightTrusting exampleCrypto [99] exampleVals emptyCommit lvl = .ok () ∧
      ¬TrustedSigners exampleCrypto [99] exampleVals emptyCommit lvl := by
  refine ⟨by decide, by decide, by decide, ?_⟩
  exact not_trustedSigners_emptyCommit ⟨by decide, by decide⟩

theorem common_signers_two : let vals := oneVoteEach .ed25519 [0, 1]
    ∃ s, Signers lenientCrypto.toBatchCrypto [1] vals (signedByAll [0, 1]) s ∧
      Signers lenientCrypto.toBatchCrypto [1] vals
        { signedByAll [0, 1] with blockID := firstBlock 4 } s ∧
      vals.total < 3 * ∑ i ∈ s, vals.power i :=
  common_signers (by decide) (by decide +kernel) (by decide +kernel)

end Examples

end CelestiaCore
