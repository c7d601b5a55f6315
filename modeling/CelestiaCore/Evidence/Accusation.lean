import CelestiaCore.Evidence.Acceptance
import CelestiaCore.Privval.DoubleSign

/-!
# Whom accepted evidence names

A validator named in accepted evidence is in the stored set and its key verifies the accusation,
unless the evidence has a correctly derived conflicting header above its common height. -/
namespace CelestiaCore.EvidencePool
open Wire Light List Option ValidatorSet

structure StoredSound (crypto : BatchCrypto) (hs : Hashes) (node : Node) : Prop where
  height : ∀ h header, node.blockMeta h = some header → header.height = h
  validatorsHash : ∀ h vals header, node.validators h = some vals →
    node.blockMeta h = some header → header.validatorsHash = hs.validators vals
  keyed : ∀ h vals, node.validators h = some vals → ∀ v ∈ vals.validators, Keyed crypto v
  nodup : ∀ h vals, node.validators h = some vals → (vals.validators.map (·.address)).Nodup

/-- The hash of the conflicting validators does not collide with that of the stored ones: it fixes
the keys and the powers. -/
def NoCollision (hs : Hashes) (node : Node) : Evidence → Prop
  | .duplicateVote _ => True
  | .lightClientAttack l => ∀ vals, node.validators l.commonHeight = some vals →
      hs.validators vals = hs.validators l.conflictingBlock.validatorSet →
      vals.validators.map (fun v => (v.pubKey, v.votingPower)) =
        l.conflictingBlock.validatorSet.validators.map fun v => (v.pubKey, v.votingPower)

/-- A key verifies two votes of one height, round and type with different canonical forms. -/
structure SignedTwice (crypto : BatchCrypto) (chainID : Bytes) (e : DuplicateVoteEvidence)
    (val : Validator) : Prop where
  height : e.voteA.height = e.voteB.height
  round : e.voteA.round = e.voteB.round
  type : e.voteA.type = e.voteB.type
  canonical : canonicalizeVote chainID e.voteA ≠ canonicalizeVote chainID e.voteB
  signed : ∃ pk a b, val.pubKey = some pk ∧ voteSignBytes chainID e.voteA = some a ∧
    voteSignBytes chainID e.voteB = some b ∧
    crypto.verifySignature pk a e.voteA.signature = true ∧
    crypto.verifySignature pk b e.voteB.signature = true

/-- A key verifies a vote for the conflicting header, which is not the header of the node. -/
def SignedConflict (crypto : BatchCrypto) (hs : Hashes) (node : Node)
    (l : LightClientAttackEvidence) (val : Validator) : Prop :=
  ∃ commonHeader trustedHeader, getSignedHeader node l.commonHeight = .ok commonHeader ∧
    getTrustedHeader node l commonHeader = .ok trustedHeader ∧
    trustedHeader.hash hs ≠ l.conflictingBlock.hash hs ∧
    l.conflictingBlock.commit.blockID.hash = l.conflictingBlock.hash hs ∧
    ∃ idx sig, l.conflictingBlock.commit.signatures[idx]? = some sig ∧ sig.blockIDFlag = .commit ∧
      Checked crypto trustedHeader.header.chainID l.conflictingBlock.commit idx sig val

def Guilty (crypto : BatchCrypto) (hs : Hashes) (node : Node) : Evidence → Validator → Prop
  | .duplicateVote e, val => SignedTwice crypto node.chainID e val
  | .lightClientAttack l, val => SignedConflict crypto hs node l val

/-- A validator of the stored set at a height with the address and the power of an entry. -/
def StoredAs (node : Node) (height : Int64) (m : Misbehavior) (val : Validator) : Prop :=
  ∃ vals, node.validators height = some vals ∧ val ∈ vals.validators ∧ val.address = m.address ∧
    val.votingPower = m.power

/-- An entry of the misbehavior list that names a stored validator for what it has signed. -/
def RightlyNamed (crypto : BatchCrypto) (hs : Hashes) (node : Node) (evidence : Evidence)
    (m : Misbehavior) : Prop :=
  ∃ val, StoredAs node evidence.height m val ∧ Guilty crypto hs node evidence val

/-- The condition: if the header is correctly derived and above the common height, the validators
that signed both commits of one round are in the set stored at the common height, with the power
that they have in the conflicting block. -/
def NamesStored (node : Node) : Evidence → Prop
  | .duplicateVote _ => True
  | .lightClientAttack l => ∀ commonHeader commonVals trustedHeader,
      getSignedHeader node l.commonHeight = .ok commonHeader →
      node.validators l.commonHeight = some commonVals →
      getTrustedHeader node l commonHeader = .ok trustedHeader →
      l.commonHeight ≠ l.conflictingBlock.height →
      conflictingHeaderIsInvalid l.conflictingBlock trustedHeader.header = false →
      trustedHeader.commit.round = l.conflictingBlock.commit.round →
      ∀ sig ∈ commonVotes l.conflictingBlock.commit.signatures trustedHeader.commit.signatures,
      ∀ i w, l.conflictingBlock.validatorSet.getByAddress sig.validatorAddress = some (i, w) →
        ∃ val ∈ commonVals.validators, val.address = w.address ∧ val.votingPower = w.votingPower

/-- All votes that a key verifies were released by a run of the file-backed validator. -/
def ThroughFilePV (crypto : BatchCrypto) (pk : PubKey) (key : Privval.PrivKey)
    (events : List Privval.Event) : Prop :=
  ∀ chainID v msg sig, voteSignBytes chainID v = some msg →
    crypto.verifySignature pk msg sig = true →
    ∃ x ∈ (Privval.Signer.run key events).released, x.signBytes = some msg

variable {vals : ValidatorSet}

section Duplicate
variable {crypto : BatchCrypto} {hs : Hashes} {node : Node} {e : DuplicateVoteEvidence}

theorem verifyDuplicateVote_eq_ok {chainID : Bytes}
    (h : verifyDuplicateVote crypto e chainID vals = .ok ()) :
    ∃ i val, vals.getByAddress e.voteA.validatorAddress = some (i, val) ∧
      val.votingPower = e.validatorPower ∧ e.voteA.blockID ≠ e.voteB.blockID ∧
      SignedTwice crypto chainID e val := by
  unfold verifyDuplicateVote at h
  split at h
  · cases h
  case h_2 i val hval =>
    split at h
    · cases h
    case h_2 pk hpk =>
      split_ifs at h with hhrs haddr hid hkey hpower
      obtain ⟨total, htotal, h⟩ := except_bind_eq_ok.1 h
      split_ifs at h with hpow
      split at h
      case h_1 a b ha hb =>
        split_ifs at h with hsigA hsigB
        simp only [not_or, not_not] at hhrs
        refine ⟨i, val, hval, not_not.1 hpower, hid, ?_⟩
        constructor
        case height => exact hhrs.1
        case round => exact hhrs.2.1
        case type => exact hhrs.2.2
        case canonical =>
          intro heq
          have hbytes : voteSignBytes chainID e.voteA = voteSignBytes chainID e.voteB := by
            simp only [voteSignBytes, heq]
          rw [ha, hb, some.injEq] at hbytes
          subst hbytes
          exact hid (voteSignBytes_injective ha hb).2.2.2.2.1
        case signed =>
          exact ⟨pk, a, b, hpk, ha, hb, by simpa using hsigA, by simpa using hsigB⟩
      case h_2 => cases h

end Duplicate

variable {m : Misbehavior} {val : Validator}

section Attack
variable {crypto : BatchCrypto} {hs : Hashes} {node : Node} {l : LightClientAttackEvidence}
  {commonHeader trustedHeader : SignedHeader} {commonVals : ValidatorSet}

/-- The entries of an accepted list have the addresses and powers of the computed one. -/
theorem checkAccused_entries {vals gots : List (Option Validator)}
    (h : checkAccused crypto vals gots = .ok ()) (hlen : vals.length = gots.length)
    (height : Int64) (time : Time) (total : Int) :
    (gots.filterMap fun v? => do
      let v ← v?
      let pk ← v.pubKey
      some (⟨crypto.address pk, v.votingPower, height, time, total⟩ : Misbehavior)).map
        (fun m => (m.address, m.power)) =
      vals.filterMap fun x => x.map fun v => (v.address, v.votingPower) := by
  induction vals generalizing gots with
  | nil =>
    rw [length_nil, eq_comm, length_eq_zero_iff] at hlen
    subst hlen
    rfl
  | cons x vals ih =>
    obtain ⟨y, gots, rfl⟩ : ∃ y gots', gots = y :: gots' := by
      cases gots with
      | nil => simp at hlen
      | cons y gots => exact ⟨y, gots, rfl⟩
    cases x with
    | none => simp [checkAccused] at h
    | some v =>
      cases y with
      | none => simp [checkAccused] at h
      | some g =>
        rw [checkAccused] at h
        split_ifs at h with haddr hpower
        split at h
        · cases h
        case h_2 pk hpk =>
          split_ifs at h with hkey
          have hrest := ih h (by simpa using hlen)
          simp only [filterMap_cons, bind_eq_bind, bind_some, hpk, map_cons, map_some,
            not_not.1 hkey,
            not_not.1 hpower, List.cons.injEq, true_and]
          exact hrest

theorem abci_of_validateABCIEvidence
    (h : validateABCIEvidence crypto l commonVals trustedHeader = .ok ()) :
    ∃ validators, getByzantineValidators l.conflictingBlock commonVals trustedHeader =
      .ok validators ∧ ∀ address power,
        (∃ m ∈ abci crypto (.lightClientAttack l), m.address = address ∧ m.power = power) ↔
          ∃ v, some v ∈ validators ∧ v.address = address ∧ v.votingPower = power := by
  unfold validateABCIEvidence at h
  obtain ⟨total, -, h⟩ := except_bind_eq_ok.1 h
  dsimp only at h
  split_ifs at h with hpower
  split at h
  · cases h
  case h_2 validators hbyz =>
    split_ifs at h with hnil hlen
    refine ⟨validators, hbyz, fun address power => ?_⟩
    have hentries := checkAccused_entries h (not_not.1 hlen) l.commonHeight l.timestamp
      l.totalVotingPower
    have hmem : (address, power) ∈ (abci crypto (.lightClientAttack l)).map
        (fun m => (m.address, m.power)) ↔ (address, power) ∈ validators.filterMap fun x =>
          x.map fun v => (v.address, v.votingPower) := by
      rw [← hentries]
      rfl
    simpa using hmem

/-- What `VerifyLightClientAttack` has checked. -/
structure AttackVerified (crypto : BatchCrypto) (hs : Hashes) (l : LightClientAttackEvidence)
    (commonHeader trustedHeader : SignedHeader) (commonVals : ValidatorSet) : Prop where
  derivation : verifyDerivation crypto l commonHeader trustedHeader commonVals = .ok ()
  all : verifyCommitLightAllSignatures crypto trustedHeader.header.chainID
    l.conflictingBlock.validatorSet l.conflictingBlock.commit.blockID l.conflictingBlock.height
    l.conflictingBlock.commit = .ok ()
  conflict : trustedHeader.hash hs ≠ l.conflictingBlock.hash hs
  abci : validateABCIEvidence crypto l commonVals trustedHeader = .ok ()

theorem verifyLightClientAttack_eq_ok
    (h : verifyLightClientAttack crypto hs l commonHeader trustedHeader commonVals = .ok ()) :
    AttackVerified crypto hs l commonHeader trustedHeader commonVals := by
  unfold verifyLightClientAttack at h
  rw [check_bind_eq_ok, check_bind_eq_ok, except_bind_eq_ok] at h
  obtain ⟨hderivation, hall, total, -, h⟩ := h
  split_ifs at h
  rw [check_bind_eq_ok] at h
  refine ⟨hderivation, hall, ?_, h.2⟩
  have hconflict := h.1
  unfold verifyConflict at hconflict
  split_ifs at hconflict with htime hhash
  exact hhash

theorem getByAddress_of_mem (hnodup : (vals.validators.map (·.address)).Nodup)
    (hval : val ∈ vals.validators) : ∃ i, vals.getByAddress val.address = some (i, val) := by
  obtain ⟨i, hi⟩ := mem_iff_getElem?.1 hval
  exact ⟨i, getByAddress_of_getElem hnodup hi⟩

/-- The trusting check was made with the stored keys: it names a stored validator rightly. -/
theorem checked_of_stored (hnodup : (commonVals.validators.map (·.address)).Nodup)
    (hderivation : verifyDerivation crypto l commonHeader trustedHeader commonVals = .ok ())
    (hheight : commonHeader.height ≠ l.conflictingBlock.height) (hval : val ∈ commonVals.validators)
    {sig : CommitSig} (hsig : sig ∈ l.conflictingBlock.commit.signatures)
    (hflag : sig.blockIDFlag = .commit) (haddr : val.address = sig.validatorAddress) :
    ∃ idx sig, l.conflictingBlock.commit.signatures[idx]? = some sig ∧ sig.blockIDFlag = .commit ∧
      Checked crypto trustedHeader.header.chainID l.conflictingBlock.commit idx sig val := by
  unfold verifyDerivation at hderivation
  rw [if_pos hheight] at hderivation
  obtain ⟨idx, hidx⟩ := mem_iff_getElem?.1 hsig
  obtain ⟨i, hget⟩ := getByAddress_of_mem hnodup hval
  rw [haddr] at hget
  exact ⟨idx, sig, hidx, hflag, verifyCommitLightTrustingInternal_all hderivation hidx hflag hget⟩

/-- At the conflicting height the conflicting validators are the stored ones, and each vote was
checked with the key at its index. -/
theorem checked_of_sameMembers (hkeyed : ∀ v ∈ vals.validators, Keyed crypto v)
    (hnodup : (vals.validators.map (·.address)).Nodup)
    (hconflicting : ∀ v ∈ l.conflictingBlock.validatorSet.validators, Keyed crypto v)
    (hsame : vals.validators.map (fun v => (v.pubKey, v.votingPower)) =
      l.conflictingBlock.validatorSet.validators.map fun v => (v.pubKey, v.votingPower))
    {chainID : Bytes} (hall : verifyCommitLightAllSignatures crypto chainID
      l.conflictingBlock.validatorSet l.conflictingBlock.commit.blockID l.conflictingBlock.height
      l.conflictingBlock.commit = .ok ())
    {sig : CommitSig} (hsig : sig ∈ l.conflictingBlock.commit.signatures)
    (hflag : sig.blockIDFlag = .commit) {i : Nat} {v : Validator}
    (hv : l.conflictingBlock.validatorSet.getByAddress sig.validatorAddress = some (i, v)) :
    ∃ val ∈ vals.validators, val.address = v.address ∧ val.votingPower = v.votingPower ∧
      ∃ idx sig, l.conflictingBlock.commit.signatures[idx]? = some sig ∧ sig.blockIDFlag = .commit ∧
        Checked crypto chainID l.conflictingBlock.commit idx sig val := by
  -- the stored validator at an index of the conflicting set
  have hstored : ∀ (j : Nat) (w : Validator), l.conflictingBlock.validatorSet.validators[j]? =
    some w →
      ∃ val : Validator, vals.validators[j]? = some val ∧ val.pubKey = w.pubKey ∧
        val.votingPower = w.votingPower ∧ val.address = w.address := by
    intro j w hw
    have hentry := congrArg (fun entries => entries[j]?) hsame
    simp only [List.getElem?_map, hw, map_some] at hentry
    obtain ⟨val, hval, hpair⟩ := map_eq_some_iff.1 hentry
    obtain ⟨hkey, hpower⟩ := Prod.mk.inj hpair
    obtain ⟨pk, hpk, haddr⟩ := hkeyed val (mem_of_getElem? hval)
    obtain ⟨pk', hpk', haddr'⟩ := hconflicting w (mem_of_getElem? hw)
    rw [hkey, hpk'] at hpk
    cases hpk
    exact ⟨val, hval, hkey, hpower, haddr.symm.trans haddr'⟩
  obtain ⟨idx, hidx⟩ := mem_iff_getElem?.1 hsig
  obtain ⟨w, hw, hwaddr, hchecked⟩ := verifyCommitLightInternal_all hall hidx hflag
  obtain ⟨hi, hvaddr⟩ := getByAddress_eq_some hv
  obtain ⟨val, hval, hkey, hpower, haddr⟩ := hstored i v hi
  obtain ⟨val', hval', hkey', -, haddr'⟩ := hstored idx w hw
  have heq : val' = val := by
    obtain ⟨k, hk⟩ := getByAddress_of_mem hnodup (mem_of_getElem? hval)
    obtain ⟨k', hk'⟩ := getByAddress_of_mem hnodup (mem_of_getElem? hval')
    rw [haddr', hwaddr, ← hvaddr, ← haddr, hk] at hk'
    exact (Prod.mk.inj (some.inj hk')).2.symm
  refine ⟨val, mem_of_getElem? hval, haddr, hpower, idx, sig, hidx, hflag, ?_⟩
  obtain ⟨pk, signBytes, hpk, hbytes, hverify⟩ := hchecked
  exact ⟨pk, signBytes, heq ▸ hkey'.trans hpk, hbytes, hverify⟩

end Attack

section Pool
variable {crypto : BatchCrypto} {hs : Hashes} {node : Node}

theorem getSignedHeader_eq_ok {h : Int64} {sh : SignedHeader}
    (hget : getSignedHeader node h = .ok sh) : node.blockMeta h = some sh.header := by
  unfold getSignedHeader at hget
  split at hget
  · cases hget
  · cases hget
  case h_3 header commit hmeta hcommit =>
    cases hget
    exact hmeta

theorem loadValidators_eq_ok {h : Int64}
    (hload : loadValidators node h = .ok vals) : node.validators h = some vals := by
  unfold loadValidators at hload
  split at hload
  · cases hload
  case h_2 vals' hvals =>
    cases hload
    exact hvals

variable {l : LightClientAttackEvidence}

theorem verify_lightClientAttack_eq_ok (h : verify crypto hs node (.lightClientAttack l) = .ok ()) :
    ∃ commonHeader commonVals trustedHeader, getSignedHeader node l.commonHeight =
      .ok commonHeader ∧
      node.validators l.commonHeight = some commonVals ∧
      getTrustedHeader node l commonHeader = .ok trustedHeader ∧
      AttackVerified crypto hs l commonHeader trustedHeader commonVals := by
  unfold verify at h
  split at h
  · cases h
  · split_ifs at h
    simp only [except_bind_eq_ok] at h
    obtain ⟨commonHeader, hcommon, commonVals, hvals, trustedHeader, htrusted, hattack⟩ := h
    exact ⟨commonHeader, commonVals, trustedHeader, hcommon, loadValidators_eq_ok hvals, htrusted,
      verifyLightClientAttack_eq_ok hattack⟩

variable {e : DuplicateVoteEvidence}

theorem verify_duplicateVote_eq_ok (h : verify crypto hs node (.duplicateVote e) = .ok ()) :
    ∃ vals, node.validators e.voteA.height = some vals ∧
      verifyDuplicateVote crypto e node.chainID vals = .ok () := by
  unfold verify at h
  split at h
  · cases h
  · split_ifs at h
    simp only [except_bind_eq_ok] at h
    obtain ⟨vals, hvals, hdup⟩ := h
    exact ⟨vals, loadValidators_eq_ok hvals, hdup⟩

theorem validateBasic_lightClientAttack (h : l.validateBasic crypto.toCrypto hs = .ok ()) :
    l.conflictingBlock.commit.blockID.hash = l.conflictingBlock.hash hs ∧
      l.conflictingBlock.header.validatorsHash = hs.validators l.conflictingBlock.validatorSet ∧
      ∀ v ∈ l.conflictingBlock.validatorSet.validators, Keyed crypto v := by
  unfold LightClientAttackEvidence.validateBasic at h
  simp only [check_bind_eq_ok, reject_eq_ok, mapError_eq_ok] at h
  have hblock := h.2.2.2
  refine ⟨?_, ?_, fun v hv => keyed_of_lightBlock_validateBasic hblock hv⟩
  · unfold LightBlock.validateBasic SignedHeader.validateBasic at hblock
    simp only [check_bind_eq_ok, mapError_eq_ok, reject_eq_ok, ne_eq, not_not] at hblock
    exact hblock.1.2.2.2.2.symm
  · unfold LightBlock.validateBasic at hblock
    simp only [check_bind_eq_ok, mapError_eq_ok, reject_eq_ok, ne_eq, not_not] at hblock
    exact hblock.2.2

theorem attack_rightlyNamed (hnode : StoredSound crypto hs node)
    (hbasic : l.validateBasic crypto.toCrypto hs = .ok ())
    (hcollision : NoCollision hs node (.lightClientAttack l))
    (h : verify crypto hs node (.lightClientAttack l) = .ok ())
    (hnames : NamesStored node (.lightClientAttack l))
    (hm : m ∈ abci crypto (.lightClientAttack l)) :
    RightlyNamed crypto hs node (.lightClientAttack l) m := by
  obtain ⟨commonHeader, commonVals, trustedHeader, hcommon, hvals, htrusted, hattack⟩ :=
    verify_lightClientAttack_eq_ok h
  obtain ⟨hhash, hvalidatorsHash, hkeyed⟩ := validateBasic_lightClientAttack hbasic
  obtain ⟨validators, hbyz, hentries⟩ := abci_of_validateABCIEvidence hattack.abci
  obtain ⟨v, hv, haddr, hpower⟩ := (hentries _ _).1 ⟨m, hm, rfl, rfl⟩
  have hcommonHeight : commonHeader.height = l.commonHeight :=
    hnode.height _ _ (getSignedHeader_eq_ok hcommon)
  have hnodup := hnode.nodup _ _ hvals
  -- a stored validator whose key verifies a vote for the conflicting block is rightly named
  have hguilty : ∀ val ∈ commonVals.validators, val.address = m.address →
      val.votingPower = m.power → (∃ idx sig,
        l.conflictingBlock.commit.signatures[idx]? = some sig ∧ sig.blockIDFlag = .commit ∧
        Checked crypto trustedHeader.header.chainID l.conflictingBlock.commit idx sig val) →
      RightlyNamed crypto hs node (.lightClientAttack l) m := by
    intro val hval hvaddr hvpower hchecked
    exact ⟨val, ⟨commonVals, hvals, hval, hvaddr, hvpower⟩, commonHeader, trustedHeader, hcommon,
      htrusted, hattack.conflict, hhash, hchecked⟩
  obtain ⟨hinvalid, sig, hsig, hflag, i, w, hw, heq⟩ | ⟨hvalid, hround, sig, hboth, heq⟩ :=
    (mem_getByzantineValidators hbyz).1 hv
  · -- a lunatic header is accepted above the common height only
    cases heq
    have hheight : commonHeader.height ≠ l.conflictingBlock.height := by
      intro hheight
      have hderivation := hattack.derivation
      unfold verifyDerivation at hderivation
      rw [if_neg (not_not.2 hheight), if_pos hinvalid] at hderivation
      cases hderivation
    have hmem := mem_of_getElem? (getByAddress_eq_some hw).1
    exact hguilty v hmem haddr hpower (checked_of_stored hnodup hattack.derivation hheight
      hmem hsig hflag (getByAddress_eq_some hw).2)
  · obtain ⟨⟨i, w⟩, hw, rfl⟩ := map_eq_some_iff.1 heq.symm
    obtain ⟨hsig, hflag⟩ := mem_of_mem_commonVotes hboth
    by_cases hheight : l.commonHeight = l.conflictingBlock.height
    · -- at the common height the two sets have one hash
      have hsame : trustedHeader = commonHeader := by
        unfold getTrustedHeader at htrusted
        rw [if_pos hheight] at htrusted
        exact (Except.ok.inj htrusted).symm
      have hsets : hs.validators commonVals = hs.validators l.conflictingBlock.validatorSet := by
        rw [← hvalidatorsHash, ← hnode.validatorsHash _ _ _ hvals (getSignedHeader_eq_ok hcommon),
          ← hsame]
        unfold conflictingHeaderIsInvalid at hvalid
        simp only [decide_eq_false_iff_not, not_or, not_not] at hvalid
        exact hvalid.1
      obtain ⟨val, hval, hvaddr, hvpower, hchecked⟩ := checked_of_sameMembers
        (hnode.keyed _ _ hvals) hnodup hkeyed (hcollision _ hvals hsets) hattack.all hsig hflag hw
      exact hguilty val hval (hvaddr.trans haddr) (hvpower.trans hpower) hchecked
    · -- above it the condition gives a stored validator
      obtain ⟨val, hval, hvaddr, hvpower⟩ := hnames _ _ _ hcommon hvals htrusted hheight hvalid
        hround sig hboth i w hw
      exact hguilty val hval (hvaddr.trans haddr) (hvpower.trans hpower) (checked_of_stored hnodup
        hattack.derivation (hcommonHeight ▸ hheight) hval hsig hflag
        (hvaddr.trans (getByAddress_eq_some hw).2))

/-- Who signed both commits is in the list, so the condition is needed. -/
theorem namesStored_of_rightlyNamed (h : verify crypto hs node (.lightClientAttack l) = .ok ())
    (hnamed : ∀ m ∈ abci crypto (.lightClientAttack l),
      RightlyNamed crypto hs node (.lightClientAttack l) m) :
    NamesStored node (.lightClientAttack l) := by
  intro commonHeader commonVals trustedHeader hcommon hvals htrusted _ hvalid hround sig hsig i w hw
  obtain ⟨commonHeader', commonVals', trustedHeader', hcommon', hvals', htrusted', hattack⟩ :=
    verify_lightClientAttack_eq_ok h
  obtain rfl := Except.ok.inj (hcommon.symm.trans hcommon')
  obtain rfl := some.inj (hvals.symm.trans hvals')
  obtain rfl := Except.ok.inj (htrusted.symm.trans htrusted')
  obtain ⟨validators, hbyz, hentries⟩ := abci_of_validateABCIEvidence hattack.abci
  have haccused : some w ∈ validators :=
    (mem_getByzantineValidators hbyz).2 (.inr ⟨hvalid, hround, sig, hsig, by rw [hw]; rfl⟩)
  obtain ⟨m, hm, haddr, hpower⟩ := (hentries _ _).2 ⟨w, haccused, rfl, rfl⟩
  obtain ⟨val, ⟨vals, hvals', hval, hvaddr, hvpower⟩, -⟩ := hnamed m hm
  obtain rfl := some.inj (hvals'.symm.trans hvals)
  exact ⟨val, hval, hvaddr.trans haddr, hvpower.trans hpower⟩

theorem duplicate_rightlyNamed (h : verify crypto hs node (.duplicateVote e) = .ok ())
    (hm : m ∈ abci crypto (.duplicateVote e)) :
    RightlyNamed crypto hs node (.duplicateVote e) m := by
  obtain ⟨vals, hvals, hdup⟩ := verify_duplicateVote_eq_ok h
  obtain ⟨i, val, hval, hpower, -, hsigned⟩ := verifyDuplicateVote_eq_ok hdup
  obtain rfl := mem_singleton.1 hm
  obtain ⟨hi, haddr⟩ := getByAddress_eq_some hval
  exact ⟨val, ⟨vals, hvals, mem_of_getElem? hi, haddr, hpower⟩, hsigned⟩

/-- A key whose votes all went through the file-backed validator has not signed twice. -/
theorem not_throughFilePV (hbasic : e.validateBasic = .ok ())
    (h : verifyDuplicateVote crypto e node.chainID vals = .ok ()) {i : Nat}
    (hval : vals.getByAddress e.voteA.validatorAddress = some (i, val))
    {pk : PubKey} (hpk : val.pubKey = some pk) (key : Privval.PrivKey)
    (events : List Privval.Event) : ¬ThroughFilePV crypto pk key events := by
  intro hfile
  obtain ⟨j, w, hw, -, hid, hsigned⟩ := verifyDuplicateVote_eq_ok h
  obtain ⟨-, rfl⟩ := Prod.mk.inj (some.inj (hval.symm.trans hw))
  obtain ⟨pk', a, b, hpk', ha, hb, hsigA, hsigB⟩ := hsigned.signed
  obtain rfl := some.inj (hpk.symm.trans hpk')
  obtain ⟨x, hx, hxa⟩ := hfile _ _ _ _ ha hsigA
  obtain ⟨y, hy, hyb⟩ := hfile _ _ _ _ hb hsigB
  have htype : e.voteA.type = .prevote ∨ e.voteA.type = .precommit := by
    unfold DuplicateVoteEvidence.validateBasic Vote.validateBasic at hbasic
    simp only [check_bind_eq_ok, mapError_eq_ok, reject_eq_ok, Bool.not_eq_false] at hbasic
    simpa [SignedMsgType.isVoteTypeValid] using hbasic.1.1
  exact hid (Privval.Signer.released_blockID_eq hx hy hxa hyb ha hb htype hsigned.type
    hsigned.height hsigned.round)

end Pool

/-- No false accusation: accepted evidence names stored validators for what they signed, except with
a derived header above its common height, whose names must be stored. -/
theorem accepted_names_iff (crypto : BatchCrypto)
    (hs : Hashes) (node : Node) (evidence : Evidence) (hnode : StoredSound crypto hs node)
    (hbasic : evidence.validateBasic crypto.toCrypto hs = .ok ())
    (hcollision : NoCollision hs node evidence) (h : verify crypto hs node evidence = .ok ()) :
    ((∀ m ∈ abci crypto evidence, RightlyNamed crypto hs node evidence m) ↔
      NamesStored node evidence) ∧
    ∀ e, evidence = .duplicateVote e → ∀ vals i val pk, node.validators e.voteA.height = some vals →
      vals.getByAddress e.voteA.validatorAddress = some (i, val) → val.pubKey = some pk →
      ∀ key events, ¬ThroughFilePV crypto pk key events := by
  constructor
  · cases evidence with
    | duplicateVote =>
      constructor
      · intro _
        trivial
      · intro _ m hm
        exact duplicate_rightlyNamed h hm
    | lightClientAttack =>
      constructor
      · exact namesStored_of_rightlyNamed h
      · intro hnames m hm
        exact attack_rightlyNamed hnode hbasic hcollision h hnames hm
  · rintro e rfl vals i val pk hvals hval hpk key events
    obtain ⟨vals', hvals', hdup⟩ := verify_duplicateVote_eq_ok h
    obtain rfl := some.inj (hvals.symm.trans hvals')
    exact not_throughFilePV hbasic hdup hval hpk key events

section Examples

def storingNode (first sixth : LightBlock) : Node where
  chainID := [99]
  lastBlockHeight := 6
  lastBlockTime := 6
  maxAgeNumBlocks := 100
  maxAgeDuration := 100
  storeHeight := 6
  blockMeta h := if h = 1 then some first.header else if h = 6 then some sixth.header else none
  blockCommit h := if h = 1 then some first.commit else if h = 6 then some sixth.commit else none
  validators h :=
    if h = 1 then some first.validatorSet else if h = 6 then some sixth.validatorSet else none

theorem storedSound_storingNode {crypto : BatchCrypto} {hs : Hashes} {first sixth : LightBlock}
    (hfirst : first.height = 1) (hsixth : sixth.height = 6)
    (hhash : ∀ b ∈ [first, sixth], b.header.validatorsHash = hs.validators b.validatorSet)
    (hkeyed : ∀ b ∈ [first, sixth], ∀ v ∈ b.validatorSet.validators, Keyed crypto v)
    (hnodup : ∀ b ∈ [first, sixth], (b.validatorSet.validators.map (·.address)).Nodup) :
    StoredSound crypto hs (storingNode first sixth) := by
  constructor
  case height =>
    intro h header hmeta
    simp only [storingNode] at hmeta
    split_ifs at hmeta with hone hsix
    · exact some.inj hmeta ▸ hfirst.trans hone.symm
    · exact some.inj hmeta ▸ hsixth.trans hsix.symm
  case validatorsHash =>
    intro h vals header hvals hmeta
    simp only [storingNode] at hvals hmeta
    split_ifs at hvals hmeta
    · exact some.inj hvals ▸ some.inj hmeta ▸ hhash first (by simp)
    · exact some.inj hvals ▸ some.inj hmeta ▸ hhash sixth (by simp)
  case keyed =>
    intro h vals hvals
    simp only [storingNode] at hvals
    split_ifs at hvals
    · exact some.inj hvals ▸ hkeyed first (by simp)
    · exact some.inj hvals ▸ hkeyed sixth (by simp)
  case nodup =>
    intro h vals hvals
    simp only [storingNode] at hvals
    split_ifs at hvals
    · exact some.inj hvals ▸ hnodup first (by simp)
    · exact some.inj hvals ▸ hnodup sixth (by simp)

theorem keyed_fork (b : UInt8) (power : Int) : Keyed batchingCrypto (forkValidator b power) :=
  ⟨⟨.ed25519, .replicate 32 b⟩, rfl, by simp [batchingCrypto, forkValidator]⟩

/-- Evidence of a second block at height 6, with all who signed both. -/
def equivocationEvidence : LightClientAttackEvidence where
  conflictingBlock := forkBlock 6 2 3
  commonHeight := 6
  byzantineValidators :=
    some [some (forkValidator 1 10), some (forkValidator 2 10), some (forkValidator 3 1)]
  totalVotingPower := 21
  timestamp := 6

theorem accepted_names_iff_equivocation :
    verify batchingCrypto forkHashes (storingNode (forkBlock 1 0 3) (forkBlock 6 1 3))
        (.lightClientAttack equivocationEvidence) = .ok () ∧
      (abci batchingCrypto (.lightClientAttack equivocationEvidence)).length = 3 ∧
      ∀ m ∈ abci batchingCrypto (.lightClientAttack equivocationEvidence),
        RightlyNamed batchingCrypto forkHashes (storingNode (forkBlock 1 0 3) (forkBlock 6 1 3))
          (.lightClientAttack equivocationEvidence) m := by
  have hverify : verify batchingCrypto forkHashes
      (storingNode (forkBlock 1 0 3) (forkBlock 6 1 3))
      (.lightClientAttack equivocationEvidence) = .ok () := by decide +kernel
  have hkeyed : ∀ v ∈ forkValidators.validators, Keyed batchingCrypto v := by
    intro v hv
    simp only [forkValidators, mem_cons, not_mem_nil, or_false] at hv
    rcases hv with rfl | rfl | rfl
    all_goals exact keyed_fork _ _
  have hsound : StoredSound batchingCrypto forkHashes
      (storingNode (forkBlock 1 0 3) (forkBlock 6 1 3)) :=
    storedSound_storingNode rfl rfl (by decide +kernel)
      (by simpa [forkBlock] using hkeyed) (by decide +kernel)
  refine ⟨hverify, by decide +kernel, ?_⟩
  refine ((accepted_names_iff batchingCrypto forkHashes _ (.lightClientAttack equivocationEvidence)
    hsound (by decide +kernel) ?_ hverify).1.2 ?_)
  · intro vals hvals _
    cases hvals
    rfl
  · intro _ _ _ _ _ _ hheight
    exact absurd rfl hheight

def sizeHashes : Hashes :=
  { forkHashes with validators := fun vals => exampleHash vals.size.toUInt8 }

/-- The chain had two validators at height 1 and has three at height 6. -/
def grownFirst : LightBlock :=
  { forkBlock 1 0 3 with
    header := { (forkBlock 1 0 3).header with validatorsHash := exampleHash 2 }
    validatorSet := ⟨[forkValidator 1 10, forkValidator 2 10], some (forkValidator 1 10), true⟩ }

def grownSixth (data : UInt8) : LightBlock :=
  { forkBlock 6 data 3 with
    header := { (forkBlock 6 data 3).header with validatorsHash := exampleHash 3 } }

/-- The second block at height 6, with height 1 as the common height. -/
def latecomerEvidence : LightClientAttackEvidence where
  conflictingBlock := grownSixth 2
  commonHeight := 1
  byzantineValidators :=
    some [some (forkValidator 1 10), some (forkValidator 2 10), some (forkValidator 3 1)]
  totalVotingPower := 20
  timestamp := 1

/-- The evidence is accepted and names the third validator, who was not in the set at height 1. -/
theorem latecomer_named :
    StoredSound batchingCrypto sizeHashes (storingNode grownFirst (grownSixth 1)) ∧
      NoCollision sizeHashes (storingNode grownFirst (grownSixth 1))
        (.lightClientAttack latecomerEvidence) ∧
      latecomerEvidence.validateBasic batchingCrypto.toCrypto sizeHashes = .ok () ∧
      verify batchingCrypto sizeHashes (storingNode grownFirst (grownSixth 1))
        (.lightClientAttack latecomerEvidence) = .ok () ∧
      ∃ m ∈ abci batchingCrypto (.lightClientAttack latecomerEvidence),
        ∀ vals, (storingNode grownFirst (grownSixth 1)).validators 1 = some vals →
          ∀ val ∈ vals.validators, val.address ≠ m.address := by
  have hkeyed : ∀ b ∈ [grownFirst, grownSixth 1], ∀ v ∈ b.validatorSet.validators,
      Keyed batchingCrypto v := by
    intro b hb v hv
    simp only [mem_cons, not_mem_nil, or_false] at hb
    rcases hb with rfl | rfl
    all_goals
      simp only [grownFirst, grownSixth, forkBlock, forkValidators, mem_cons,
        not_mem_nil, or_false] at hv
    · rcases hv with rfl | rfl
      all_goals exact keyed_fork _ _
    · rcases hv with rfl | rfl | rfl
      all_goals exact keyed_fork _ _
  refine ⟨storedSound_storingNode rfl rfl (by decide +kernel) hkeyed (by decide +kernel), ?_,
    by decide +kernel, by decide +kernel, ⟨.replicate 20 3, 1, 1, 1, 20⟩, by decide +kernel, ?_⟩
  · intro vals hvals hhash
    cases hvals
    exact absurd hhash (by decide +kernel)
  · intro vals hvals
    cases hvals
    decide +kernel

end Examples

end CelestiaCore.EvidencePool
