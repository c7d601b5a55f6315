import CelestiaCore.Types.Commit
import CelestiaCore.Types.VoteSetRuns

/-!
# The commit of a majority

A majority of precommits makes a commit that passes `ValidateBasic` and gives back its votes.
-/
namespace CelestiaCore
open Wire Quorum List Option VoteSet

section Verify
variable {crypto : Crypto} {chainID : Bytes} {v : Vote} {pk : PubKey}

/-- The signature of the vote verifies under the key of the validator at index `i`. -/
def Vote.SignedAt (crypto : Crypto) (chainID : Bytes) (vals : ValidatorSet) (v : Vote) (i : Nat) :
    Prop :=
  ∃ val pk bytes, vals.validators[i]? = some val ∧ v.validatorAddress = val.address ∧
    val.pubKey = some pk ∧ crypto.address pk = v.validatorAddress ∧
    voteSignBytes chainID v = some bytes ∧ crypto.verifySignature pk bytes v.signature = true

/-- A precommit of a height and round, without extension, as a vote set admits it. -/
structure Vote.Precommit (crypto : Crypto) (chainID : Bytes) (height : Int64) (round : Int32)
    (vals : ValidatorSet) (v : Vote) : Prop where
  basic : v.validateBasic = .ok ()
  type : v.type = .precommit
  height : v.height = height
  round : v.round = round
  extension : v.extension = []
  extensionSignature : v.extensionSignature = []
  signed : v.SignedAt crypto chainID vals v.validatorIndex.toInt.toNat

theorem VoteSet.verifyVote_eq_ok {vs : VoteSet} {val : Validator}
    (hext : vs.extensionsEnabled = false) : vs.verifyVote crypto v val = .ok none ↔
      (∃ pk, val.pubKey = some pk ∧ v.verify crypto vs.chainID pk = .ok none) ∧
        v.extension = [] ∧ v.extensionSignature = [] := by
  unfold verifyVote
  cases val.pubKey with
  | none => simp
  | some pk =>
    simp only [hext, Bool.false_eq_true, if_false, bind, Except.bind]
    cases hver : v.verify crypto vs.chainID pk with
    | error p => simp [hver]
    | ok e =>
      cases e with
      | some e => simp [hver]
      | none =>
        dsimp only
        split_ifs with hlen
        · simp only [reduceCtorEq, Except.ok.injEq, false_iff]
          rintro ⟨-, hext, hsig⟩
          simp [hext, hsig] at hlen
        · have hnil : v.extensionSignature = [] ∧ v.extension = [] := by simpa using hlen
          simp [hnil, hver]

/-- What a vote that passes `ValidateBasic` is known to be. -/
structure Vote.Basic (v : Vote) : Prop where
  height : 0 < v.height.toInt
  round : 0 ≤ v.round.toInt
  blockID : v.blockID.validateBasic = .ok ()
  shape : v.blockID = .zero ∨ v.blockID.isComplete = true
  address : v.validatorAddress.length = addressSize
  index : 0 ≤ v.validatorIndex.toInt
  signature : v.signature.length ≠ 0
  signature_le : v.signature.length ≤ maxSignatureSize

theorem Vote.basic_of_validateBasic (h : v.validateBasic = .ok ()) : v.Basic := by
  simp only [Vote.validateBasic, check_bind_eq_ok, reject_eq_ok] at h
  obtain ⟨-, hheight, hround, hid, hshape, haddr, hindex, hsig, hlen, -⟩ := h
  refine ⟨?_, ?_, ?_, ?_, not_not.1 haddr, ?_, hsig, not_lt.1 hlen⟩
  · simpa [Int64.le_iff_toInt_le] using hheight
  · simpa [Int32.lt_iff_toInt_lt] using hround
  · cases hbasic : v.blockID.validateBasic with
    | error e => simp [hbasic, Except.mapError] at hid
    | ok u => rfl
  · by_cases hzero : v.blockID.isZero = true
    · exact Or.inl ((BlockID.isZero_iff _).1 hzero)
    · right
      by_contra hcomplete
      exact hshape ⟨by simpa using hzero, by simpa using hcomplete⟩
  · simpa [Int32.lt_iff_toInt_lt] using hindex

theorem BlockID.wellFormed_of_shape {b : BlockID} (h : b = .zero ∨ b.isComplete = true) :
    b.WellFormed := by
  obtain rfl | h := h
  · exact Or.inl rfl
  · exact wellFormed_of_isComplete h

end Verify

namespace VoteSet

theorem foldl_apply_all (crypto : Crypto)
    {P : Vote → Prop} (ops : List Op) {vs : VoteSet} (hacc : vs.Accounts)
    (hall : vs.All P) (hP : ∀ vs', Extends vs vs' → ∀ v i power, Op.addVote v ∈ ops →
      Verified crypto vs' v i power → P v) : (ops.foldl (apply crypto) vs).All P := by
  induction ops generalizing vs with
  | nil => exact hall
  | cons op ops ih =>
    obtain ⟨hacc', hext⟩ := apply_spec crypto hacc op
    refine ih hacc' ?_ ?_
    · cases op with
      | addVote v =>
        simp only [apply]
        split
        · next vs' added err h =>
          exact (addVote_spec hacc h).2.2 P hall fun i power hv =>
            hP vs (.refl vs) v i power (by simp) hv
        · exact hall
      | setPeerMaj23 peerID b => exact (setPeerMaj23_spec hacc peerID b).2.2 P hall
    · intro vs' hext' v i power hmem hv
      exact hP vs' (hext.trans hext') v i power (mem_cons_of_mem _ hmem) hv

theorem Verified.precommit {crypto : Crypto} {vs : VoteSet} {v : Vote}
    {i : Nat} {power : Int} {height : Int64} {round : Int32} (h : Verified crypto vs v i power)
    (hbasic : v.validateBasic = .ok ()) (htype : vs.signedMsgType = .precommit)
    (hheight : vs.height = height.toInt) (hround : vs.round = round.toInt)
    (hext : vs.extensionsEnabled = false) : v.Precommit crypto vs.chainID height round vs.vals := by
  obtain ⟨val, hval, hverify⟩ := h.signed
  obtain ⟨⟨pk, hpk, hver⟩, hnil, hnil'⟩ := (verifyVote_eq_ok hext).1 hverify
  obtain ⟨haddr, bytes, hbytes, hsig⟩ := verify_eq_ok.1 hver
  refine ⟨hbasic, h.type.trans htype, ?_, ?_, hnil, hnil', ?_⟩
  · exact Int64.toInt_inj.1 (h.height.trans hheight)
  · exact Int32.toInt_inj.1 (h.round.trans hround)
  · rw [h.index, Int.toNat_natCast]
    exact ⟨val, pk, bytes, hval, h.address val hval, hpk, haddr, hbytes, hsig⟩

end VoteSet

section Carried
variable {crypto : Crypto} {chainID : Bytes} {height : Int64} {round : Int32}
  {vals : ValidatorSet} {b : BlockID} {o : Option Vote} {v : Vote}

/-- The vote of a slot that a commit of `b` carries, if any. -/
def carried (b : BlockID) (o : Option Vote) : Option Vote :=
  o.filter fun v => v.blockID = b ∨ v.blockID = .zero

def Vote.flag (v : Vote) : BlockIDFlag := if v.blockID = .zero then .nil else .commit

def carriedSig : Option Vote → CommitSig
  | none => .absent
  | some v => ⟨v.flag, v.validatorAddress, v.timestamp, v.signature⟩

theorem carried_eq_some : carried b o = some v ↔ o = some v ∧
    (v.blockID = b ∨ v.blockID = .zero) := by
  simp [carried, filter_eq_some_iff]

/-- The signature a slot of a vote set becomes, without extension. -/
def slotSig (b : BlockID) (o : Option Vote) : ExtendedCommitSig :=
  ⟨carriedSig (carried b o), [], []⟩

/-- The slots of a vote set of precommits become the signatures of the votes they carry. -/
theorem commitSigOf_eq (hb : b ≠ .zero)
    (h : ∀ v, o = some v → v.Precommit crypto chainID height round vals) :
    commitSigOf b o = some (slotSig b o) := by
  unfold slotSig
  cases o with
  | none => rfl
  | some v =>
    have hv := h v rfl
    obtain hzero | hcomplete := (Vote.basic_of_validateBasic hv.basic).shape
    · have hsig : v.commitSig = some ⟨.nil, v.validatorAddress, v.timestamp, v.signature⟩ := by
        unfold Vote.commitSig
        rw [hzero]
        rfl
      have hcarried : carried b (some v) = some v := carried_eq_some.2 ⟨rfl, Or.inr hzero⟩
      simp [commitSigOf, extendedCommitSig, hsig, hcarried, hzero, carriedSig, Vote.flag,
        hv.extension, hv.extensionSignature]
    · have hsig : v.commitSig = some ⟨.commit, v.validatorAddress, v.timestamp, v.signature⟩ := by
        simp [Vote.commitSig, hcomplete]
      have hzero : v.blockID ≠ .zero := by
        intro hzero
        rw [hzero] at hcomplete
        exact absurd hcomplete (by decide)
      by_cases hblock : v.blockID = b
      · have hcarried : carried b (some v) = some v := carried_eq_some.2 ⟨rfl, Or.inl hblock⟩
        simp [commitSigOf, extendedCommitSig, hsig, hcarried, hblock, hb, carriedSig,
          Vote.flag, hv.extension, hv.extensionSignature]
      · have hcarried : carried b (some v) = none := by
          rw [eq_none_iff_forall_ne_some]
          intro w hw
          obtain ⟨heq, hor⟩ := carried_eq_some.1 hw
          cases heq
          exact hor.elim hblock hzero
        simp [commitSigOf, extendedCommitSig, hsig, hcarried, hblock, carriedSig,
          ExtendedCommitSig.absent]

def commitOf (height : Int64) (round : Int32) (b : BlockID) (votes : List (Option Vote)) : Commit :=
  ⟨height, round, b, votes.map fun o => carriedSig (carried b o)⟩

theorem mapM_eq_some_map {α β : Type*} {f : α → Option β} {g : α → β} {l : List α}
    (h : ∀ x ∈ l, f x = some (g x)) : l.mapM f = some (l.map g) := by
  induction l with
  | nil => rfl
  | cons x l ih =>
    rw [mapM_cons, h x (by simp), ih fun y hy => h y (mem_cons_of_mem _ hy)]
    rfl

/-- `MakeExtendedCommit` does not panic, and its `ToCommit` is the commit of the votes. -/
theorem VoteSet.makeExtendedCommit_eq {vs : VoteSet} {ap : ABCIParams}
    (htype : vs.signedMsgType = .precommit) (hmaj : vs.maj23 = some b) (hb : b ≠ .zero)
    (hheight : vs.height = height.toInt) (hround : vs.round = round.toInt)
    (hap : ap.voteExtensionsEnabled height = some false)
    (h : ∀ o ∈ vs.votes, ∀ v, o = some v → v.Precommit crypto chainID height round vals) :
    ∃ ec, vs.makeExtendedCommit ap = .ok ec ∧ ec.toCommit = commitOf height round b vs.votes := by
  have hsigs : vs.votes.mapM (commitSigOf b) = some (vs.votes.map (slotSig b)) :=
    mapM_eq_some_map fun o ho => commitSigOf_eq hb (h o ho)
  have hensure : (vs.votes.map (slotSig b)).forM (·.ensureExtension false) = .ok () := by
    apply forM_eq_ok
    intro ecs hecs
    obtain ⟨o, -, rfl⟩ := mem_map.1 hecs
    rfl
  refine ⟨⟨height, round, b, vs.votes.map (slotSig b)⟩, ?_, ?_⟩
  · simp only [makeExtendedCommit, htype, hmaj, hsigs, hheight, hround, Int64.ofInt_toInt,
      Int32.ofInt_toInt, hap, ExtendedCommit.ensureExtensions, hensure]
    rw [if_neg (by simp)]
  · simp [ExtendedCommit.toCommit, commitOf, slotSig]

theorem getElem?_commitOf {votes : List (Option Vote)} {i : Nat} :
    (commitOf height round b votes).signatures[i]? =
      votes[i]?.map fun o => carriedSig (carried b o) := by
  simp [commitOf]

theorem getVote_commitOf {votes : List (Option Vote)} {i : Nat} (ho : votes[i]? = some o)
    (hv : carried b o = some v) (hpre : v.Precommit crypto chainID height round vals)
    (hindex : v.validatorIndex.toInt = i) : (commitOf height round b votes).getVote i = some v := by
  obtain ⟨-, hblock⟩ := carried_eq_some.1 hv
  have hid : (carriedSig (some v)).blockID b = some v.blockID := by
    by_cases hzero : v.blockID = .zero
    · simp [CommitSig.blockID, carriedSig, Vote.flag, hzero]
    · simp only [CommitSig.blockID, carriedSig, Vote.flag, if_neg hzero]
      exact congrArg some (hblock.resolve_right hzero).symm
  have hidx : Int32.ofNat i = v.validatorIndex := by
    rw [← Int32.ofInt_eq_ofNat, ← hindex, Int32.ofInt_toInt]
  obtain ⟨-, htype, hheight, hround, hext, hextsig, -⟩ := hpre
  rw [Commit.getVote, getElem?_commitOf, ho, map_some, hv]
  simp only [bind_eq_bind, bind_some, commitOf, hid]
  cases v
  simp_all [carriedSig]

end Carried

section Validate
variable {crypto : Crypto} {chainID : Bytes} {height : Int64} {round : Int32}
  {vals : ValidatorSet} {b : BlockID} {votes : List (Option Vote)}

theorem carriedSig_validateBasic {o : Option Vote}
    (h : ∀ v, o = some v → v.Precommit crypto chainID height round vals) :
    (carriedSig o).validateBasic = .ok () := by
  cases o with
  | none => rfl
  | some v =>
    obtain ⟨-, -, -, -, haddr, -, hsig, hlen⟩ := Vote.basic_of_validateBasic (h v rfl).basic
    have hflag : v.flag = .nil ∨ v.flag = .commit := by
      unfold Vote.flag
      split_ifs <;> simp
    obtain hflag | hflag := hflag <;>
      simp [CommitSig.validateBasic, carriedSig, hflag, haddr, hsig, hlen]

/-- The commit of precommits for a block, one of which is for the block itself, is valid. -/
theorem commitOf_validateBasic (hheight : 1 ≤ height) (hb : b ≠ .zero) {w : Vote}
    (hw : w.Precommit crypto chainID height round vals) (hwb : w.blockID = b) (hne : votes ≠ [])
    (h : ∀ o ∈ votes, ∀ v, o = some v → v.Precommit crypto chainID height round vals) :
    (commitOf height round b votes).validateBasic = .ok () := by
  have hbasic := Vote.basic_of_validateBasic hw.basic
  have hround : ¬round < 0 := by
    rw [Int32.lt_iff_toInt_lt, ← hw.round]
    exact not_lt.2 hbasic.round
  have hpos : ¬height < 0 := by
    rw [Int64.lt_iff_toInt_lt]
    rw [Int64.le_iff_toInt_le] at hheight
    exact not_lt.2 (le_trans (by decide) hheight)
  have hzero : b.isZero = false := by
    rw [Bool.eq_false_iff]
    exact fun hz => hb ((BlockID.isZero_iff b).1 hz)
  have hid : b.validateBasic = .ok () := hwb ▸ hbasic.blockID
  have hsigs : ((votes.map fun o => carriedSig (carried b o)).zipIdx.forM fun p =>
      p.1.validateBasic.mapError fun e => s!"wrong CommitSig #{p.2}: {e}") = .ok () := by
    apply forM_eq_ok
    rintro ⟨sig, i⟩ hmem
    obtain ⟨o, ho, rfl⟩ := mem_map.1 (fst_mem_of_mem_zipIdx hmem)
    have hsig : (carriedSig (carried b o)).validateBasic = .ok () :=
      carriedSig_validateBasic fun v hv => h o ho v (carried_eq_some.1 hv).1
    simp [hsig, Except.mapError]
  simp only [Commit.validateBasic, commitOf, check_bind_eq_ok, reject_eq_ok, if_pos hheight, hsigs,
    hid, hzero, hround, hpos]
  simp [Except.mapError, hne]

end Validate

end CelestiaCore
