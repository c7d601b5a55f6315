import CelestiaCore.Consensus.HeightVoteSet

/-!
# Runs of a height vote set

Every tracked vote set keeps its accounts and is only ever extended.
-/
namespace CelestiaCore
open Wire Quorum Option Except Function

/-- A vote of the height, round and type of the set, signed with the key at its index. -/
structure VoteSet.Admits (crypto : Crypto) (vs : VoteSet) (v : Vote) : Prop where
  height : v.height.toInt = vs.height
  round : v.round.toInt = vs.round
  type : v.type = vs.signedMsgType
  signed : ∃ val pk bytes, vs.vals.validators[v.validatorIndex.toInt.toNat]? = some val ∧
    val.pubKey = some pk ∧ voteSignBytes vs.chainID v = some bytes ∧
    crypto.verifySignature pk bytes v.signature = true

namespace VoteSet
variable {crypto : Crypto} {vs vs' : VoteSet} {v : Vote}

theorem verifyVote_ok {val : Validator} (h : vs.verifyVote crypto v val = .ok none) :
    ∃ pk, val.pubKey = some pk ∧ v.verify crypto vs.chainID pk = .ok none := by
  unfold verifyVote at h
  split at h
  · cases h
  next pk hpk =>
  refine ⟨pk, hpk, ?_⟩
  cases hver : v.verify crypto vs.chainID pk with
  | error p => split_ifs at h <;> simp [Vote.verifyVoteAndExtension, hver] at h
  | ok e =>
    cases e with
    | none => rfl
    | some e => split_ifs at h <;> simp [Vote.verifyVoteAndExtension, hver] at h

theorem Verified.admits {i : Nat} {power : Int} (h : Verified crypto vs v i power) :
    vs.Admits crypto v := by
  refine ⟨h.height, h.round, h.type, ?_⟩
  obtain ⟨val, hval, hverify⟩ := h.signed
  obtain ⟨pk, hpk, hver⟩ := verifyVote_ok hverify
  obtain ⟨-, bytes, hbytes, hsig⟩ := verify_eq_ok.1 hver
  have hindex : v.validatorIndex.toInt.toNat = i := by
    rw [h.index]
    exact Int.toNat_natCast i
  exact ⟨val, pk, bytes, hindex ▸ hval, hpk, hbytes, hsig⟩

theorem Admits.extends (h : vs.Admits crypto v) (hext : vs.Extends vs') : vs'.Admits crypto v := by
  obtain ⟨hheight, hround, htype, hsigned⟩ := h
  refine ⟨hheight.trans hext.height.symm, hround.trans hext.round.symm,
    htype.trans hext.type.symm, ?_⟩
  rw [vals, hext.valSet, hext.chainID]
  exact hsigned

theorem All.mono {P P' : Vote → Prop} (h : vs.All P) (hP : ∀ v, P v → P' v) : vs.All P' := by
  refine ⟨fun i v hv => hP v (h.votes i v hv),
    fun k bv i v hbv hv => hP v (h.tallied k bv i v hbv hv), ?_⟩
  intro b hb
  obtain ⟨v, hv, hvb⟩ := h.maj23 b hb
  exact ⟨v, hP v hv, hvb⟩

theorem Accounts.hasTwoThirdsAny (h : vs.Accounts) {b : BlockID} (hb : vs.maj23 = some b) :
    vs.hasTwoThirdsAny = true := by
  obtain ⟨bv, hbv, hmaj, -⟩ := h.majority b hb
  have hsub : filled bv.votes ⊆ filled vs.votes := by
    intro i hi
    rw [mem_filled] at hi ⊢
    exact h.backed b.key bv i hbv hi
  have hle : bv.sum ≤ vs.sum := by
    rw [(h.blocks b.key bv hbv).sum, h.sum]
    exact Finset.sum_le_sum_of_subset_of_nonneg hsub fun i _ _ => vs.valSet.2.power_nonneg i
  have hmaj' : 2 * vs.valSet.1.total < 3 * bv.sum := hmaj
  unfold VoteSet.hasTwoThirdsAny
  rw [vs.valSet.2.totalVotingPower_eq]
  simp only [decide_eq_true_eq]
  omega

end VoteSet

/-- Panics of `AddVote` on what the caller or a peer hands it, not on its own bookkeeping. -/
def Consensus.HeightVoteSetPanic.Foreign (p : Consensus.HeightVoteSetPanic) : Prop :=
  p = .extensionsMismatch ∨ p = .voteSet .heightZero ∨ p = .voteSet .nilPubKey ∨
    p = .voteSet .signBytes

namespace Consensus.HeightVoteSet
variable {crypto : Crypto} {P : Vote → Prop} {hvs hvs' : HeightVoteSet} {r : Int}

/-- What the set tracked for a round and type is known to be. -/
structure Tracks (crypto : Crypto) (P : Vote → Prop) (hvs : HeightVoteSet) (r : Int)
    (t : SignedMsgType) (vs : VoteSet) : Prop where
  accounts : vs.Accounts
  votes : vs.All fun v => P v ∧ vs.Admits crypto v
  chainID : vs.chainID = hvs.chainID
  height : vs.height = hvs.height
  round : vs.round = r
  type : vs.signedMsgType = t
  valSet : vs.valSet = hvs.valSet

def Consistent (crypto : Crypto) (P : Vote → Prop) (hvs : HeightVoteSet) : Prop :=
  ∀ r rvs, hvs.roundVoteSets r = some rvs →
    hvs.Tracks crypto P r .prevote rvs.prevotes ∧ hvs.Tracks crypto P r .precommit rvs.precommits

/-- A later vote set of the same height: no tracked set is lost, and each is only extended. -/
structure Extends (hvs hvs' : HeightVoteSet) : Prop where
  chainID : hvs'.chainID = hvs.chainID
  height : hvs'.height = hvs.height
  valSet : hvs'.valSet = hvs.valSet
  sets : ∀ r t vs, hvs.getVoteSet r t = some vs →
    ∃ vs', hvs'.getVoteSet r t = some vs' ∧ vs.Extends vs'

theorem Extends.refl (hvs : HeightVoteSet) : Extends hvs hvs :=
  ⟨rfl, rfl, rfl, fun _ _ vs h => ⟨vs, h, .refl vs⟩⟩

theorem Extends.trans {hvs'' : HeightVoteSet} (h : Extends hvs hvs') (h' : Extends hvs' hvs'') :
    Extends hvs hvs'' := by
  refine ⟨h'.chainID.trans h.chainID, h'.height.trans h.height, h'.valSet.trans h.valSet, ?_⟩
  intro r t vs hvs
  obtain ⟨vs', hvs', hext⟩ := h.sets r t vs hvs
  obtain ⟨vs'', hvs'', hext'⟩ := h'.sets r t vs' hvs'
  exact ⟨vs'', hvs'', hext.trans hext'⟩

variable {t : SignedMsgType}

theorem Extends.majority {b : BlockID} (h : Extends hvs hvs')
    (hb : twoThirdsMajority (hvs.getVoteSet r t) = some b) :
    twoThirdsMajority (hvs'.getVoteSet r t) = some b := by
  obtain ⟨vs, hvs, hmaj⟩ := bind_eq_some_iff.1 hb
  obtain ⟨vs', hvs', hext⟩ := h.sets r t vs hvs
  simp only [twoThirdsMajority, hvs', bind_some]
  exact hext.maj23 b hmaj

theorem Extends.hasTwoThirdsAny (h : Extends hvs hvs')
    (hany : Consensus.hasTwoThirdsAny (hvs.getVoteSet r t) = true) :
    Consensus.hasTwoThirdsAny (hvs'.getVoteSet r t) = true := by
  obtain ⟨vs, hvs, hsum⟩ := (any_eq_true _ _).1 hany
  obtain ⟨vs', hvs', hext⟩ := h.sets r t vs hvs
  simp only [Consensus.hasTwoThirdsAny, hvs', any_some]
  simp only [VoteSet.hasTwoThirdsAny, hext.valSet] at hsum ⊢
  split at hsum
  · have := hext.sum
    simp only [decide_eq_true_eq] at hsum ⊢
    omega
  · exact hsum

variable {vs : VoteSet}

theorem Tracks.frame (h : hvs.Tracks crypto P r t vs)
    (hext : hvs.Extends hvs') : hvs'.Tracks crypto P r t vs :=
  ⟨h.accounts, h.votes, h.chainID.trans hext.chainID.symm, h.height.trans hext.height.symm,
    h.round, h.type, h.valSet.trans hext.valSet.symm⟩

theorem Consistent.congr (h : hvs.Consistent crypto P) (hext : hvs.Extends hvs')
    (hsets : hvs'.roundVoteSets = hvs.roundVoteSets) : hvs'.Consistent crypto P := by
  intro r rvs hrvs
  rw [hsets] at hrvs
  obtain ⟨hpre, hcom⟩ := h r rvs hrvs
  exact ⟨hpre.frame hext, hcom.frame hext⟩

theorem Consistent.tracks (h : hvs.Consistent crypto P)
    (ht : t.isVoteTypeValid = true) (hget : hvs.getVoteSet r t = some vs) :
    hvs.Tracks crypto P r t vs := by
  obtain ⟨rvs, hrvs, rfl⟩ := map_eq_some_iff.1 hget
  have ht' : t = .prevote ∨ t = .precommit := by
    simpa [SignedMsgType.isVoteTypeValid] using ht
  rcases ht' with rfl | rfl
  · exact (h r rvs hrvs).1
  · exact (h r rvs hrvs).2

theorem Consistent.precommits (h : hvs.Consistent crypto P)
    (hget : hvs.precommits r = some vs) : hvs.Tracks crypto P r .precommit vs :=
  h.tracks (by decide) hget

theorem getVoteSet_withRound {r' : Int} (hnone : hvs.roundVoteSets r' = none)
    (h : hvs.getVoteSet r t = some vs) : (hvs.withRound r').getVoteSet r t = some vs := by
  have hne : r ≠ r' := by
    rintro rfl
    simp [getVoteSet, hnone] at h
  simpa [getVoteSet, withRound, hne] using h

theorem withRound_extends {r' : Int} (hnone : hvs.roundVoteSets r' = none) :
    Extends hvs (hvs.withRound r') :=
  ⟨rfl, rfl, rfl, fun _ _ vs h => ⟨vs, getVoteSet_withRound hnone h, .refl vs⟩⟩

theorem Consistent.withRound (h : hvs.Consistent crypto P) {r' : Int}
    (hnone : hvs.roundVoteSets r' = none) : (hvs.withRound r').Consistent crypto P := by
  intro r rvs hrvs
  by_cases hr : r = r'
  · subst hr
    have hrvs' : hvs.emptyRound r = rvs := by
      simpa [HeightVoteSet.withRound] using hrvs
    subst hrvs'
    exact ⟨⟨.empty .., .empty .., rfl, rfl, rfl, rfl, rfl⟩,
      ⟨.empty .., .empty .., rfl, rfl, rfl, rfl, rfl⟩⟩
  · have hrvs' : hvs.roundVoteSets r = some rvs := by
      simpa [HeightVoteSet.withRound, hr] using hrvs
    obtain ⟨hpre, hcom⟩ := h r rvs hrvs'
    exact ⟨hpre.frame (withRound_extends hnone), hcom.frame (withRound_extends hnone)⟩

theorem addRound_spec {r' : Int} (h : hvs.addRound r' = .ok hvs') :
    hvs.roundVoteSets r' = none ∧ hvs' = hvs.withRound r' := by
  unfold addRound at h
  split_ifs at h with hsome
  exact ⟨by simpa using hsome, (ok.inj h).symm⟩

theorem Consistent.new (crypto : Crypto) (P : Vote → Prop) (chainID : Bytes) (height : Int)
    (valSet : BoundedValidatorSet) (ext : Bool) :
    (HeightVoteSet.new chainID height valSet ext).Consistent crypto P :=
  Consistent.withRound (by intro r rvs hrvs; cases hrvs) rfl

theorem addRounds_spec (crypto : Crypto) (P : Vote → Prop) {n : Nat}
    (h : hvs.addRounds r n = .ok hvs') :
    Extends hvs hvs' ∧ hvs'.round = hvs.round ∧ hvs'.extensionsEnabled = hvs.extensionsEnabled ∧
      (hvs.Consistent crypto P → hvs'.Consistent crypto P) := by
  induction n generalizing hvs r with
  | zero =>
    cases h
    exact ⟨.refl _, rfl, rfl, id⟩
  | succ n ih =>
    unfold addRounds at h
    split_ifs at h
    · exact ih h
    split at h
    · cases h
    next hvs₁ hadd =>
    obtain ⟨hnone, rfl⟩ := addRound_spec hadd
    obtain ⟨hext, hround, hexts, hcons⟩ := ih h
    exact ⟨(withRound_extends hnone).trans hext, hround, hexts,
      fun hc => hcons (hc.withRound hnone)⟩

theorem setRound_error {round : Int} {p : HeightVoteSetPanic}
    (h : hvs.setRound round = .error p) : p = .setRound ∧ hvs.round ≠ 0 ∧ round < hvs.round - 1 ∨
      p = .overflow ∨ p = .neverReturns ∨ p = .voteSet .heightZero := by
  have hadd : ∀ n (hvs : HeightVoteSet) r, hvs.addRounds r n = .error p →
      p = .voteSet .heightZero := by
    intro n
    induction n with
    | zero => intro hvs r h; cases h
    | succ n ih =>
      intro hvs r h
      unfold addRounds at h
      split_ifs at h with hsome
      · exact ih _ _ h
      split at h
      · next p' hp' =>
        cases h
        unfold addRound at hp'
        rw [if_neg hsome] at hp'
        split_ifs at hp'
        exact (error.inj hp').symm
      · exact ih _ _ h
  simp only [setRound] at h
  split_ifs at h with hover hback hmax
  · exact .inr (.inl (error.inj h).symm)
  · exact .inl ⟨(error.inj h).symm, hback⟩
  · exact .inr (.inr (.inl (error.inj h).symm))
  split at h
  · next p' hp' =>
    cases h
    exact .inr (.inr (.inr (hadd _ _ _ hp')))
  · cases h

theorem setRound_spec (crypto : Crypto) (P : Vote → Prop) {round : Int}
    (h : hvs.setRound round = .ok hvs') :
    Extends hvs hvs' ∧ hvs'.round = round ∧ hvs'.extensionsEnabled = hvs.extensionsEnabled ∧
      (hvs.Consistent crypto P → hvs'.Consistent crypto P) := by
  simp only [setRound] at h
  split_ifs at h
  split at h
  · cases h
  next hvs₁ hadd =>
  cases h
  obtain ⟨hext, -, hexts, hcons⟩ := addRounds_spec crypto P hadd
  have hframe : Extends hvs₁ { hvs₁ with round := round } :=
    ⟨rfl, rfl, rfl, (Extends.refl hvs₁).sets⟩
  exact ⟨hext.trans hframe, rfl, hexts, fun hc => (hcons hc).congr hframe rfl⟩

theorem setVoteSet_spec {vs vs' : VoteSet}
    (ht : t.isVoteTypeValid = true) (hget : hvs.getVoteSet r t = some vs) (hext : vs.Extends vs') :
    Extends hvs (hvs.setVoteSet r t vs') ∧ (hvs.setVoteSet r t vs').getVoteSet r t = some vs' ∧
      (hvs.Consistent crypto P → hvs.Tracks crypto P r t vs' →
        (hvs.setVoteSet r t vs').Consistent crypto P) := by
  obtain ⟨rvs, hrvs, hold⟩ := map_eq_some_iff.1 hget
  have ht' : t = .prevote ∨ t = .precommit := by
    simpa [SignedMsgType.isVoteTypeValid] using ht
  have hself : (hvs.setVoteSet r t vs').getVoteSet r t = some vs' := by
    simp only [getVoteSet, setVoteSet, update_self, hrvs, map_some]
    split_ifs <;> rfl
  have hsets : Extends hvs (hvs.setVoteSet r t vs') := by
    refine ⟨rfl, rfl, rfl, ?_⟩
    intro r₀ t₀ vs₀ h₀
    by_cases hr : r₀ = r
    · subst hr
      simp only [getVoteSet, hrvs, map_some, some.injEq] at h₀
      simp only [getVoteSet, setVoteSet, update_self, hrvs, map_some]
      refine ⟨_, rfl, ?_⟩
      subst h₀ hold
      by_cases ht₀ : t₀ = .prevote <;> by_cases ht₁ : t = .prevote <;>
        simp only [ht₀, ht₁, ↓reduceIte] at hext ⊢ <;> first | exact hext | exact .refl _
    · refine ⟨vs₀, ?_, .refl vs₀⟩
      simpa [getVoteSet, setVoteSet, hr] using h₀
  refine ⟨hsets, hself, ?_⟩
  intro hcons htracks r₀ rvs₀ h₀
  by_cases hr : r₀ = r
  · subst hr
    simp only [setVoteSet, update_self, hrvs, map_some, some.injEq] at h₀
    obtain ⟨hpre, hcom⟩ := hcons r₀ rvs hrvs
    subst h₀
    rcases ht' with rfl | rfl
    · exact ⟨htracks.frame hsets, hcom.frame hsets⟩
    · exact ⟨hpre.frame hsets, htracks.frame hsets⟩
  · have h₀' : hvs.roundVoteSets r₀ = some rvs₀ := by simpa [setVoteSet, hr] using h₀
    obtain ⟨hpre, hcom⟩ := hcons r₀ rvs₀ h₀'
    exact ⟨hpre.frame hsets, hcom.frame hsets⟩

theorem Tracks.extends {vs vs' : VoteSet} (h : hvs.Tracks crypto P r t vs)
    (hacc : vs'.Accounts) (hext : vs.Extends vs')
    (hall : vs'.All fun v => P v ∧ vs.Admits crypto v) : hvs.Tracks crypto P r t vs' :=
  ⟨hacc, hall.mono fun _ hv => ⟨hv.1, hv.2.extends hext⟩, hext.chainID.trans h.chainID,
    hext.height.trans h.height, hext.round.trans h.round, hext.type.trans h.type,
    hext.valSet.trans h.valSet⟩

/-- A call on the set of the vote, which panics only on a validator without a key or a vote that
cannot be encoded. -/
theorem addToSet_spec {vote : Vote} (hcons : hvs.Consistent crypto P) (hP : P vote)
    (ht : vote.type.isVoteTypeValid = true) :
    Extends hvs (hvs.addToSet crypto vote).1 ∧ (hvs.addToSet crypto vote).1.round = hvs.round ∧
      (hvs.addToSet crypto vote).1.extensionsEnabled = hvs.extensionsEnabled ∧
      (hvs.addToSet crypto vote).1.Consistent crypto P ∧
      ∀ p, (hvs.addToSet crypto vote).2 = .error p →
        hvs.getVoteSet vote.round.toInt vote.type = none ∧ p = .nilVoteSet ∨
          p = .voteSet .nilPubKey ∨ p = .voteSet .signBytes := by
  unfold addToSet
  split
  · next hget =>
    refine ⟨.refl _, rfl, rfl, hcons, ?_⟩
    intro p hp
    exact .inl ⟨hget, (error.inj hp).symm⟩
  · next vs hget =>
    have htracks := hcons.tracks ht hget
    split
    · next p hadd =>
      refine ⟨.refl _, rfl, rfl, hcons, ?_⟩
      intro p' hp'
      cases hp'
      rcases VoteSet.addVote_error htracks.accounts hadd with rfl | rfl
      · exact .inr (.inl rfl)
      · exact .inr (.inr rfl)
    · next vs' added err hadd =>
      obtain ⟨hacc, hext, hall⟩ := VoteSet.addVote_spec htracks.accounts hadd
      obtain ⟨hexts, -, hset⟩ := setVoteSet_spec (P := P) ht hget hext
      refine ⟨hexts, rfl, rfl, hset hcons (htracks.extends hacc hext ?_), by simp⟩
      exact hall _ htracks.votes fun i power hv => ⟨hP, hv.admits⟩

theorem addVote_spec {vote : Vote} (peerID : P2PID) (ext : Bool)
    (hcons : hvs.Consistent crypto P) (hP : P vote) :
    let result := hvs.addVote crypto vote peerID ext
    Extends hvs result.1 ∧ result.1.round = hvs.round ∧
      result.1.extensionsEnabled = hvs.extensionsEnabled ∧ result.1.Consistent crypto P ∧
      ∀ p, result.2 = .error p → p.Foreign := by
  simp only [addVote]
  split_ifs with hexts htype hsome hlen
  · refine ⟨.refl _, rfl, rfl, hcons, ?_⟩
    intro p hp
    exact .inl (error.inj hp).symm
  · exact ⟨.refl _, rfl, rfl, hcons, by simp⟩
  · obtain ⟨hext, hround, hen, hcons', herr⟩ := addToSet_spec hcons hP (by simpa using htype)
    refine ⟨hext, hround, hen, hcons', ?_⟩
    intro p hp
    rcases herr p hp with ⟨hnone, -⟩ | hp' | hp'
    · simp [hnone] at hsome
    · exact .inr (.inr (.inl hp'))
    · exact .inr (.inr (.inr hp'))
  · split
    · next p hadd =>
      refine ⟨.refl _, rfl, rfl, hcons, ?_⟩
      intro p' hp'
      cases hp'
      unfold addRound at hadd
      split_ifs at hadd with hround hheight
      · simp [getVoteSet] at hsome
        simp [hsome] at hround
      · exact .inr (.inl (error.inj hadd).symm)
    · next hvs₁ hadd =>
      obtain ⟨hnone, rfl⟩ := addRound_spec hadd
      set hvs₂ : HeightVoteSet := { hvs.withRound vote.round.toInt with
        peerCatchupRounds := update (hvs.withRound vote.round.toInt).peerCatchupRounds
          peerID (hvs.peerCatchupRounds peerID ++ [vote.round.toInt]) } with hhvs₂
      have hframe : Extends (hvs.withRound vote.round.toInt) hvs₂ :=
        ⟨rfl, rfl, rfl, (Extends.refl (hvs.withRound vote.round.toInt)).sets⟩
      have hcons₂ : hvs₂.Consistent crypto P := (hcons.withRound hnone).congr hframe rfl
      obtain ⟨hext, hround, hen, hcons', herr⟩ := addToSet_spec hcons₂ hP (by simpa using htype)
      refine ⟨((withRound_extends hnone).trans hframe).trans hext, hround, hen, hcons', ?_⟩
      intro p hp
      rcases herr p hp with ⟨hnone', -⟩ | hp' | hp'
      · simp [hhvs₂, getVoteSet, withRound] at hnone'
      · exact .inr (.inr (.inl hp'))
      · exact .inr (.inr (.inr hp'))
  · exact ⟨.refl _, rfl, rfl, hcons, by simp⟩

theorem setPeerMaj23_spec (hcons : hvs.Consistent crypto P) (r : Int) (t : SignedMsgType)
    (peerID : P2PID) (b : BlockID) :
    let result := (hvs.setPeerMaj23 r t peerID b).1
    Extends hvs result ∧ result.round = hvs.round ∧
      result.extensionsEnabled = hvs.extensionsEnabled ∧ result.Consistent crypto P := by
  simp only [setPeerMaj23]
  split_ifs with htype
  · exact ⟨.refl _, rfl, rfl, hcons⟩
  split
  · exact ⟨.refl _, rfl, rfl, hcons⟩
  next vs hget =>
  have ht : t.isVoteTypeValid = true := by simpa using htype
  have htracks := hcons.tracks ht hget
  obtain ⟨hacc, hext, hall⟩ := VoteSet.setPeerMaj23_spec htracks.accounts peerID b
  obtain ⟨hexts, -, hset⟩ := setVoteSet_spec (P := P) ht hget hext
  exact ⟨hexts, rfl, rfl, hset hcons (htracks.extends hacc hext (hall _ htracks.votes))⟩

/-- `POLInfo` finds every round up to the tracked one that has a majority of prevotes. -/
theorem le_polInfo {b : BlockID} (hr : 0 ≤ r) (hround : r ≤ hvs.round)
    (hb : twoThirdsMajority (hvs.prevotes r) = some b) : r ≤ hvs.polInfo.1 := by
  have hbelow : ∀ n : Nat, r < n → r ≤ (hvs.polInfoBelow n).1 := by
    intro n
    induction n with
    | zero => intro hlt; omega
    | succ n ih =>
      intro hlt
      unfold polInfoBelow
      split
      · simp only
        omega
      next hnone =>
      apply ih
      by_contra hge
      have hrn : r = n := by omega
      rw [← hrn, hb] at hnone
      cases hnone
  exact hbelow _ (by omega)

end Consensus.HeightVoteSet

end CelestiaCore
