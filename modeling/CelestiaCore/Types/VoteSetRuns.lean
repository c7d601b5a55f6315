import CelestiaCore.Types.VoteSetAccounting

/-!
# Runs of a vote set

`AddVote` and `SetPeerMaj23` keep the accounts and never lose a majority or voting power.
-/
namespace CelestiaCore
open Wire Quorum Option Except BlockVotes

namespace VoteSet

/-- Nothing a later set says contradicts an earlier one. -/
structure Extends (vs vs' : VoteSet) : Prop where
  chainID : vs'.chainID = vs.chainID
  height : vs'.height = vs.height
  round : vs'.round = vs.round
  type : vs'.signedMsgType = vs.signedMsgType
  extensions : vs'.extensionsEnabled = vs.extensionsEnabled
  valSet : vs'.valSet = vs.valSet
  maj23 : ∀ b, vs.maj23 = some b → vs'.maj23 = some b
  sum : vs.sum ≤ vs'.sum

theorem Extends.refl (vs : VoteSet) : Extends vs vs :=
  ⟨rfl, rfl, rfl, rfl, rfl, rfl, fun _ h => h, le_rfl⟩

theorem Extends.trans {vs vs' vs'' : VoteSet} (h : Extends vs vs') (h' : Extends vs' vs'') :
    Extends vs vs'' :=
  ⟨h'.chainID.trans h.chainID, h'.height.trans h.height, h'.round.trans h.round,
    h'.type.trans h.type, h'.extensions.trans h.extensions, h'.valSet.trans h.valSet, fun b hb =>
      h'.maj23 b (h.maj23 b hb),
    h.sum.trans h'.sum⟩

/-- Every vote of the set, canonical or tallied, satisfies `P`, and the majority is for the block
of one of them. -/
structure All (P : Vote → Prop) (vs : VoteSet) : Prop where
  votes : ∀ i v, slot vs.votes i = some v → P v
  tallied : ∀ k bv i v, vs.votesByBlock k = some bv → slot bv.votes i = some v → P v
  maj23 : ∀ b, vs.maj23 = some b → ∃ v, P v ∧ v.blockID = b

theorem All.empty (P : Vote → Prop) (chainID : Bytes) (height round : Int) (type : SignedMsgType)
    (valSet : BoundedValidatorSet) (ext : Bool) :
    (VoteSet.empty chainID height round type valSet ext).All P := by
  refine ⟨?_, ?_, ?_⟩ <;> simp [VoteSet.empty]

variable {P : Vote → Prop}

section Record
variable {crypto : Crypto} {vs vs' : VoteSet} {vote : Vote} {i : Nat} {power : Int}
  {conflicting : Option Vote}

theorem record_ok (hv : Verified crypto vs vote i power) :
    ∃ vs' conflicting, vs.record vote vote.blockID.key i power = .ok (vs', conflicting) := by
  obtain ⟨hcanon, -⟩ := getVote_eq_none hv.fresh
  unfold record
  split
  · next existing hex =>
    have hne : existing.blockID ≠ vote.blockID := by
      intro heq
      exact hcanon existing hex (by rw [heq])
    rw [if_neg hne]
    split_ifs <;> exact ⟨_, _, rfl⟩
  · exact ⟨_, _, rfl⟩

theorem record_extends (hpower : 0 ≤ power)
    (h : vs.record vote vote.blockID.key i power = .ok (vs', conflicting)) : Extends vs vs' := by
  rcases record_cases h with ⟨-, -, rfl⟩ | ⟨-, -, -, -, ⟨-, rfl⟩ | ⟨-, rfl⟩⟩
  · exact ⟨rfl, rfl, rfl, rfl, rfl, rfl, fun _ hb => hb, by simp [hpower]⟩
  · exact ⟨rfl, rfl, rfl, rfl, rfl, rfl, fun _ hb => hb, le_rfl⟩
  · exact .refl _

theorem All.setVote (h : vs.All P) (hP : P vote) (hi : i < vs.votes.length)
    (sum : Int) : ({ vs.setVote i vote with sum := sum } : VoteSet).All P := by
  refine ⟨?_, h.tallied, h.maj23⟩
  intro j v hj
  simp only [VoteSet.setVote, slot_set _ hi] at hj
  split_ifs at hj
  · cases hj
    exact hP
  · exact h.votes j v hj

theorem record_all (h : vs.All P) (hP : P vote) (hi : i < vs.votes.length)
    (hrec : vs.record vote vote.blockID.key i power = .ok (vs', conflicting)) : vs'.All P := by
  rcases record_cases hrec with ⟨-, -, rfl⟩ | ⟨-, -, -, -, ⟨-, rfl⟩ | ⟨-, rfl⟩⟩
  · exact h.setVote hP hi _
  · exact h.setVote hP hi vs.sum
  · exact h

end Record

section Count
variable {vs vs' : VoteSet} {vote : Vote} {i : Nat} {power : Int} {bv : BlockVotes}

theorem count_cases (h : vs.count vote vote.blockID.key i power bv = .ok vs') :
    vs' = vs.withTally vote.blockID.key (bv.addVerifiedVote vote i power) ∨
    vs.maj23 = none ∧ vs' =
      { vs.withTally vote.blockID.key (bv.addVerifiedVote vote i power) with
        maj23 := some vote.blockID
        votes := copyVotes vs.votes (bv.addVerifiedVote vote i power).votes } := by
  unfold count at h
  split at h
  · cases h
  · simp only at h
    split_ifs at h with hcross
    · exact .inr ⟨hcross.2.2, (ok.inj h).symm⟩
    · exact .inl (ok.inj h).symm

theorem count_extends (h : vs.count vote vote.blockID.key i power bv = .ok vs') :
    Extends vs vs' := by
  rcases count_cases h with rfl | ⟨hnone, rfl⟩
  · exact ⟨rfl, rfl, rfl, rfl, rfl, rfl, fun _ hb => hb, le_rfl⟩
  · exact ⟨rfl, rfl, rfl, rfl, rfl, rfl, by simp [hnone], le_rfl⟩

theorem addVerifiedVote_slot (hi : i < bv.votes.length) {j : Nat} {v : Vote}
    (h : slot (bv.addVerifiedVote vote i power).votes j = some v) :
    v = vote ∨ slot bv.votes j = some v := by
  unfold BlockVotes.addVerifiedVote at h
  split at h
  · exact .inr h
  · simp only [slot_set _ hi] at h
    split_ifs at h
    · exact .inl (some.inj h).symm
    · exact .inr h

theorem All.withTally (h : vs.All P) {k : Bytes} (hbv : ∀ j v, slot bv.votes j = some v → P v) :
    (vs.withTally k bv).All P :=
  ⟨h.votes, fun _ _ j v => forall_withTally (P := fun _ bv => slot bv.votes j = some v →
    P v) (hbv j v)
    fun k bv => h.tallied k bv j v, h.maj23⟩

theorem length_addVerifiedVote :
    (bv.addVerifiedVote vote i power).votes.length = bv.votes.length := by
  unfold BlockVotes.addVerifiedVote
  split <;> simp

theorem count_all {conflicting : Option Vote} (hacc : vs.Accounts) (h : vs.All P)
    (hP : P vote) (hi : i < vs.vals.size) (hbv : vs.tally vote.blockID.key conflicting = some bv)
    (hcount : vs.count vote vote.blockID.key i power bv = .ok vs') : vs'.All P := by
  have hbvlen := (tally_spec hacc hbv).1.votes_length
  have htally : ∀ j v, slot (bv.addVerifiedVote vote i power).votes j = some v → P v := by
    intro j v hj
    rcases addVerifiedVote_slot (hbvlen ▸ hi) hj with rfl | hold
    · exact hP
    · exact h.tallied _ bv j v (stored_of_slot hbv hold) hold
  have hwith := h.withTally (k := vote.blockID.key) htally
  rcases count_cases hcount with rfl | ⟨-, rfl⟩
  · exact hwith
  refine ⟨?_, hwith.tallied, ?_⟩
  · intro j v hj
    simp only [slot_copyVotes (length_addVerifiedVote.trans (hbvlen.trans hacc.votes_length.symm)),
      or_eq_some_iff] at hj
    rcases hj with hj | ⟨-, hj⟩
    · exact htally j v hj
    · exact h.votes j v hj
  · intro b hb
    cases hb
    exact ⟨vote, hP, rfl⟩

end Count

/-- Every canonical vote is in the tally of its block. -/
def AllTallied (vs : VoteSet) : Prop :=
  ∀ i v, slot vs.votes i = some v →
    ∃ bv, vs.votesByBlock v.blockID.key = some bv ∧ slot bv.votes i = some v

section AddVote
variable {crypto : Crypto} {vs vs' : VoteSet} {vote : Vote}

variable {power : Int}

theorem addVerifiedVote_cases {i : Nat} {added : Bool} {conflicting : Option Vote}
    (h : vs.addVerifiedVote vote vote.blockID.key i power = .ok (vs', added, conflicting)) :
    ∃ vs₁, vs.record vote vote.blockID.key i power = .ok (vs₁, conflicting) ∧
      (added = false ∧ vs' = vs₁ ∧ vs₁.tally vote.blockID.key conflicting = none ∨
        added = true ∧ ∃ bv, vs₁.tally vote.blockID.key conflicting = some bv ∧
          vs₁.count vote vote.blockID.key i power bv = .ok vs') := by
  simp only [addVerifiedVote, except_bind_eq_ok, Prod.exists] at h
  obtain ⟨vs₁, conflicting₁, hrec, h⟩ := h
  cases htally : vs₁.tally vote.blockID.key conflicting₁ with
  | none =>
    obtain ⟨rfl, rfl, rfl⟩ : vs₁ = vs' ∧ false = added ∧ conflicting₁ = conflicting := by
      simpa [htally] using h
    exact ⟨vs₁, hrec, .inl ⟨rfl, rfl, htally⟩⟩
  | some bv =>
    simp only [htally, except_bind_eq_ok] at h
    obtain ⟨vs₂, hcount, h⟩ := h
    obtain ⟨rfl, rfl, rfl⟩ : vs₂ = vs' ∧ true = added ∧ conflicting₁ = conflicting := by
      simpa using h
    exact ⟨vs₁, hrec, .inr ⟨rfl, bv, htally, hcount⟩⟩

theorem addVote_cases {added : Bool} {err : Option VoteError}
    (h : vs.addVote crypto vote = .ok (vs', added, err)) :
    (added = false ∧ vs' = vs ∧ ∀ i power, vs.check crypto vote ≠ .ok (.verified i power)) ∨
    ∃ i power conflicting, vs.check crypto vote = .ok (.verified i power) ∧
      vs.addVerifiedVote vote vote.blockID.key i power = .ok (vs', added, conflicting) := by
  simp only [addVote, except_bind_eq_ok] at h
  obtain ⟨c, hcheck, h⟩ := h
  cases c with
  | verified i power =>
    simp only [except_bind_eq_ok, Prod.exists] at h
    obtain ⟨vs₂, added₂, conflicting, hadd, h⟩ := h
    refine .inr ⟨i, power, conflicting, hcheck, hadd.trans ?_⟩
    cases conflicting with
    | none =>
      split_ifs at h with htrue
      cases h
      rw [htrue]
    | some existing =>
      cases h
      rfl
  | _ =>
    obtain ⟨rfl, hadded, -⟩ : vs = vs' ∧ false = added ∧ _ := by simpa using h
    exact .inl ⟨hadded.symm, rfl, fun i power hno => by simp [hcheck] at hno⟩

/-- The tally of a verified vote has no vote of its validator. -/
theorem Verified.slot_tally {i : Nat} (hv : Verified crypto vs vote i power)
    {vs₁ : VoteSet} (hsame : SameTallies vs vs₁) {conflicting : Option Vote} {bv : BlockVotes}
    (htally : vs₁.tally vote.blockID.key conflicting = some bv) : slot bv.votes i = none := by
  refine eq_none_iff_forall_ne_some.2 fun v hj => ?_
  have hold := stored_of_slot htally hj
  rw [hsame.votesByBlock] at hold
  rw [(getVote_eq_none hv.fresh).2 bv hold] at hj
  cases hj

theorem AllTallied.added (hacc : vs.Accounts) (h : vs.AllTallied) {vs₁ : VoteSet} {i : Nat}
    {conflicting : Option Vote} {bv : BlockVotes}
    (hv : Verified crypto vs vote i power)
    (hrec : vs.record vote vote.blockID.key i power = .ok (vs₁, conflicting))
    (htally : vs₁.tally vote.blockID.key conflicting = some bv)
    (hcount : vs₁.count vote vote.blockID.key i power bv = .ok vs') : vs'.AllTallied := by
  obtain ⟨hacc₁, hsame, -, -⟩ := record_spec hacc hv hrec
  have hvals : vs₁.vals = vs.vals := congrArg Subtype.val hsame.valSet
  obtain ⟨hbv, -⟩ := tally_spec hacc₁ htally
  rw [hvals] at hbv
  have hfresh := hv.slot_tally hsame htally
  have hbv' := hbv.addVerifiedVote hv.lt_size hfresh rfl hv.index
  rw [← hv.power_eq] at hbv'
  have hslot := slot_addVerifiedVote vote power (hbv.votes_length ▸ hv.lt_size) hfresh
  have hvs' := count_cases hcount
  generalize bv.addVerifiedVote vote i power = bv' at hbv' hslot hvs'
  -- a canonical vote is the new one, in its tally now, or an earlier one that was in a tally before
  have hkept : ∀ j v, slot vs₁.votes j = some v →
      ∃ bv₀, (vs₁.withTally vote.blockID.key bv').votesByBlock v.blockID.key = some bv₀ ∧
        slot bv₀.votes j = some v := by
    intro j v hj
    have hcases : j = i ∧ v = vote ∨ slot vs.votes j = some v := by
      have hset : slot (vs.votes.set i (some vote)) j = some v → j = i ∧ v = vote ∨
          slot vs.votes j = some v := by
        rw [slot_set _ (hacc.votes_length ▸ hv.lt_size)]
        split_ifs with hij
        · exact fun heq => .inl ⟨hij.symm, (some.inj heq).symm⟩
        · exact .inr
      rcases record_cases hrec with ⟨-, -, rfl⟩ | ⟨-, -, -, -, ⟨-, rfl⟩ | ⟨-, rfl⟩⟩
      · exact hset hj
      · exact hset hj
      · exact .inr hj
    rcases hcases with ⟨rfl, rfl⟩ | hj
    · exact ⟨bv', by simp [withTally], by rw [hslot, if_pos rfl]⟩
    obtain ⟨bv₀, hbv₀, hvote⟩ := h j v hj
    by_cases hkey : v.blockID.key = vote.blockID.key
    · obtain rfl := eq_of_tally htally (hsame.votesByBlock ▸ hkey ▸ hbv₀)
      have hij : i ≠ j := by
        rintro rfl
        rw [hfresh] at hvote
        cases hvote
      exact ⟨bv', by simp [withTally, hkey], by rw [hslot, if_neg hij, hvote]⟩
    · exact ⟨bv₀, by simpa [withTally, hkey, hsame.votesByBlock] using hbv₀, hvote⟩
  rcases hvs' with rfl | ⟨-, rfl⟩
  · exact hkept
  intro j v hj
  have hlen : bv'.votes.length = vs₁.votes.length := by
    rw [hbv'.votes_length, hacc₁.votes_length, hvals]
  simp only [slot_copyVotes hlen, or_eq_some_iff] at hj
  rcases hj with hj | ⟨-, hj⟩
  · exact ⟨bv', by simp [withTally, (hbv'.keyed j v hj).1], hj⟩
  · exact hkept j v hj

theorem addVerifiedVote_spec {i : Nat}
    (hacc : vs.Accounts) (hv : Verified crypto vs vote i power) : ∃ vs' added conflicting,
      vs.addVerifiedVote vote vote.blockID.key i power = .ok (vs', added, conflicting) ∧
      vs'.Accounts ∧ Extends vs vs' ∧ (conflicting = none → added = true) ∧
      ∀ P : Vote → Prop, vs.All P → P vote → vs'.All P := by
  obtain ⟨vs₁, conflicting, hrec⟩ := record_ok hv
  obtain ⟨hacc₁, hsame, hsome, hcanon⟩ := record_spec hacc hv hrec
  have hpower : 0 ≤ power := by
    rw [hv.power_eq]
    exact vs.valSet.2.power_nonneg i
  have hext₁ := record_extends hpower hrec
  have hlen : i < vs.votes.length := hacc.votes_length ▸ hv.lt_size
  have hall₁ : ∀ P : Vote → Prop, vs.All P → P vote → vs₁.All P :=
    fun P h hP => record_all h hP hlen hrec
  have hvals : vs₁.vals = vs.vals := congrArg Subtype.val hsame.valSet
  cases htally : vs₁.tally vote.blockID.key conflicting with
  | none =>
    refine ⟨vs₁, false, conflicting, ?_, hacc₁, hext₁, ?_, hall₁⟩
    · simp [addVerifiedVote, hrec, htally]
    · rintro rfl
      unfold tally at htally
      split at htally <;> simp at htally
  | some bv =>
    have hfresh := hv.slot_tally hsame htally
    have hi₁ : i < vs₁.vals.size := hvals ▸ hv.lt_size
    have hcanon₁ : vs₁.maj23.any (·.key = vote.blockID.key) → slot vs₁.votes i = some vote := by
      rw [hsame.maj23]
      exact fun h => hcanon (.inr h)
    obtain ⟨vs₂, hcount, hacc₂, -⟩ :=
      count_spec hacc₁ hi₁ hv.index htally hfresh hsome hcanon₁
    rw [hvals, ← hv.power_eq] at hcount
    refine ⟨vs₂, true, conflicting, ?_, hacc₂, hext₁.trans (count_extends hcount), fun _ => rfl, ?_⟩
    · simp [addVerifiedVote, hrec, htally, hcount]
    · intro P h hP
      exact count_all hacc₁ (hall₁ P h hP) hP hi₁ htally hcount

theorem verify_eq_ok {chainID : Bytes} {pk : PubKey} : vote.verify crypto chainID pk = .ok none ↔
    crypto.address pk = vote.validatorAddress ∧ ∃ bytes, voteSignBytes chainID vote = some bytes ∧
      crypto.verifySignature pk bytes vote.signature = true := by
  unfold Vote.verify
  split_ifs with haddr
  · simp [haddr]
  have haddr : crypto.address pk = vote.validatorAddress := not_not.1 haddr
  cases hbytes : voteSignBytes chainID vote with
  | none => simp
  | some bytes =>
    dsimp only
    split_ifs with hsig <;> simp [haddr, hsig]

variable {p : VoteSetPanic}

theorem verify_error {chainID : Bytes} {pk : PubKey}
    (h : vote.verify crypto chainID pk = .error p) : p = .signBytes := by
  unfold Vote.verify at h
  split_ifs at h
  split at h
  · exact (error.inj h).symm
  · split_ifs at h

theorem verifyVote_error {val : Validator}
    (h : vs.verifyVote crypto vote val = .error p) : p = .nilPubKey ∨ p = .signBytes := by
  unfold verifyVote at h
  split at h
  · exact .inl (Except.error.inj h).symm
  right
  next pk hpk =>
  cases hver : vote.verify crypto vs.chainID pk with
  | error p' =>
    obtain rfl := verify_error hver
    split_ifs at h <;>
      simp only [Vote.verifyVoteAndExtension, hver, bind, Except.bind, Except.error.injEq] at h <;>
      exact h.symm
  | ok e =>
    split_ifs at h <;>
      simp only [Vote.verifyVoteAndExtension, hver, ok_bind] at h <;>
      split at h <;> (try split_ifs at h) <;> cases h

/-- Checking a vote panics only on a validator without a key or a vote that cannot be encoded. -/
theorem check_error (h : vs.check crypto vote = .error p) : p = .nilPubKey ∨ p = .signBytes := by
  simp only [check] at h
  split_ifs at h
  split at h
  · cases h
  next val hval =>
  split_ifs at h
  split at h
  · split_ifs at h
  split at h
  · next p' hp =>
    cases h
    exact verifyVote_error hp
  · cases h
  · cases h

theorem addVote_error (hacc : vs.Accounts)
    (h : vs.addVote crypto vote = .error p) : p = .nilPubKey ∨ p = .signBytes := by
  simp only [addVote, bind, Except.bind] at h
  split at h
  · next hcheck =>
    cases h
    exact check_error hcheck
  · next c hcheck =>
    split at h
    · cases h
    · cases h
    next i power =>
    obtain ⟨vs₂, added, conflicting, hadd, -, -, hadded, -⟩ :=
      addVerifiedVote_spec hacc (verified_of_check hcheck)
    simp only [hadd] at h
    split at h
    · cases h
    · split_ifs at h with hfalse
      exact absurd (hadded rfl) hfalse

theorem addVote_spec {added : Bool} {err : Option VoteError} (hacc : vs.Accounts)
    (h : vs.addVote crypto vote = .ok (vs', added, err)) :
    vs'.Accounts ∧ Extends vs vs' ∧ ∀ P : Vote → Prop, vs.All P →
      (∀ i power, Verified crypto vs vote i power → P vote) → vs'.All P := by
  rcases addVote_cases h with ⟨-, rfl, -⟩ | ⟨i, power, conflicting, hcheck, hadd⟩
  · exact ⟨hacc, .refl _, fun P hP _ => hP⟩
  · have hv := verified_of_check hcheck
    obtain ⟨vs₂, added₂, conflicting₂, hadd₂, hacc₂, hext, -, hall⟩ := addVerifiedVote_spec hacc hv
    obtain ⟨rfl, -⟩ := Prod.mk.inj (ok.inj (hadd₂.symm.trans hadd))
    exact ⟨hacc₂, hext, fun P hP hvote => hall P hP (hvote i power hv)⟩

end AddVote

variable {vs : VoteSet}

theorem accounts_of_claim (hacc : vs.Accounts) {k : Bytes} {bv : BlockVotes}
    (claims : P2PID → Option BlockID) (hbv : (∃ bv₀, vs.votesByBlock k = some bv₀ ∧
      bv = { bv₀ with peerMaj23 := true }) ∨ vs.votesByBlock k = none ∧
        bv = .new true vs.vals.size) :
    let vs' : VoteSet := { vs.withTally k bv with peerMaj23s := claims }
    vs'.Accounts ∧ Extends vs vs' ∧ ∀ P : Vote → Prop, vs.All P → vs'.All P := by
  suffices h : (vs.withTally k bv).Accounts ∧
      ∀ P : Vote → Prop, vs.All P → (vs.withTally k bv).All P from
    ⟨{ h.1 with }, ⟨rfl, rfl, rfl, rfl, rfl, rfl, fun _ h => h, le_rfl⟩, fun P hP =>
      { h.2 P hP with }⟩
  rcases hbv with ⟨bv₀, hold, rfl⟩ | ⟨hnone, rfl⟩
  · have hacc₀ := hacc.blocks k bv₀ hold
    refine ⟨hacc.withTally (hacc₀.setPeerMaj23 true) (fun j hj => hacc.backed k bv₀ j hold hj)
      (fun hnone => hacc.minority hnone k bv₀ hold) ?_ ?_, ?_⟩
    · intro bv₁ h₁
      obtain rfl := some.inj (hold.symm.trans h₁)
      exact le_rfl
    · intro b hb hkey j v hj
      obtain ⟨bv₁, h₁, -, hvotes⟩ := hacc.majority b hb
      rw [hkey] at h₁
      obtain rfl := some.inj (hold.symm.trans h₁)
      exact hvotes j v hj
    · exact fun P hP => hP.withTally fun j v => hP.tallied k bv₀ j v hold
  · refine ⟨hacc.withTally (.new vs.vals k true) (by simp [BlockVotes.new]) ?_ ?_ ?_, ?_⟩
    · intro _ hmaj
      have hpos : 0 ≤ vs.vals.total := vs.valSet.2.total_nonneg
      simp only [Majority, BlockVotes.new] at hmaj
      omega
    · intro bv₁ h₁
      rw [hnone] at h₁
      cases h₁
    · intro b _ _ j v hj
      simp [BlockVotes.new] at hj
    · exact fun P hP => hP.withTally (by simp [BlockVotes.new])

theorem setPeerMaj23_spec (hacc : vs.Accounts) (peerID : P2PID) (b : BlockID) :
    (vs.setPeerMaj23 peerID b).1.Accounts ∧ Extends vs (vs.setPeerMaj23 peerID b).1 ∧
      ∀ P : Vote → Prop, vs.All P → (vs.setPeerMaj23 peerID b).1.All P := by
  unfold setPeerMaj23
  split
  · exact ⟨hacc, .refl _, fun P hP => hP⟩
  cases hold : vs.votesByBlock b.key with
  | some bv₀ => exact accounts_of_claim hacc _ (.inl ⟨bv₀, hold, rfl⟩)
  | none => exact accounts_of_claim hacc _ (.inr ⟨hold, rfl⟩)

inductive Op where
  | addVote (vote : Vote)
  | setPeerMaj23 (peerID : P2PID) (blockID : BlockID)

/-- One call on the set. A panic of `AddVote` comes before any of its writes. -/
def apply (crypto : Crypto) (vs : VoteSet) : Op → VoteSet
  | .addVote vote =>
    match vs.addVote crypto vote with
    | .ok (vs', _, _) => vs'
    | .error _ => vs
  | .setPeerMaj23 peerID blockID => (vs.setPeerMaj23 peerID blockID).1

theorem apply_spec (crypto : Crypto) (hacc : vs.Accounts) (op : Op) :
    (vs.apply crypto op).Accounts ∧ Extends vs (vs.apply crypto op) := by
  cases op with
  | addVote =>
    simp only [apply]
    split
    · next vs' added err h =>
      obtain ⟨hacc', hext, -⟩ := addVote_spec hacc h
      exact ⟨hacc', hext⟩
    · exact ⟨hacc, .refl _⟩
  | setPeerMaj23 peerID b =>
    obtain ⟨hacc', hext, -⟩ := setPeerMaj23_spec hacc peerID b
    exact ⟨hacc', hext⟩

theorem foldl_apply_spec (crypto : Crypto) (ops : List Op) (hacc : vs.Accounts) :
    (ops.foldl (apply crypto) vs).Accounts ∧ Extends vs (ops.foldl (apply crypto) vs) := by
  induction ops generalizing vs with
  | nil => exact ⟨hacc, .refl _⟩
  | cons op ops ih =>
    obtain ⟨hacc', hext⟩ := apply_spec crypto hacc op
    obtain ⟨hacc'', hext'⟩ := ih hacc'
    exact ⟨hacc'', hext.trans hext'⟩

/-- The slots of an array that are not nil, among the first `n`. -/
def nonNil (votes : List (Option Vote)) (n : Nat) : Finset Nat :=
  (Finset.range n).filter fun i => slot votes i ≠ none

theorem filled_eq_nonNil {votes : List (Option Vote)} {n : Nat} (h : votes.length = n) :
    filled votes = nonNil votes n := by
  subst h
  ext i
  simp [filled, nonNil, isSome_iff_ne_none]

theorem bits_iff_of_agree {bits : List Bool} {votes : List (Option Vote)} (h : BitsAgree bits votes)
    (i : Nat) : bits.getD i false = true ↔ slot votes i ≠ none := by
  rw [h i, isSome_iff_ne_none]

/-- After any calls bits, votes and sums agree, and the majority is set exactly when a tally exceeds
two thirds of the total power and never changes after that. -/
theorem foldl_apply_accounts (crypto : Crypto) (chainID : Bytes) (height round : Int)
    (type : SignedMsgType) (valSet : BoundedValidatorSet) (ext : Bool) (ops : List Op) :
    let vs := ops.foldl (apply crypto) (VoteSet.empty chainID height round type valSet ext)
    (∀ i, vs.votesBitArray.getD i false = true ↔ slot vs.votes i ≠ none) ∧
    vs.sum = ∑ i ∈ nonNil vs.votes valSet.1.size, valSet.1.power i ∧
    (∀ k bv, vs.votesByBlock k = some bv →
      (∀ i, bv.bitArray.getD i false = true ↔ slot bv.votes i ≠ none) ∧
      bv.sum = ∑ i ∈ nonNil bv.votes valSet.1.size, valSet.1.power i ∧
      ∀ i v, slot bv.votes i = some v → v.blockID.key = k ∧ v.validatorIndex.toInt = i) ∧
    (vs.maj23 ≠ none ↔ ∃ k bv, vs.votesByBlock k = some bv ∧ 2 * valSet.1.total < 3 * bv.sum) ∧
    (∀ b, vs.maj23 = some b → ∀ ops' : List Op, (ops'.foldl (apply crypto) vs).maj23 = some b) ∧
    (∀ b bv i v, vs.maj23 = some b → vs.votesByBlock b.key = some bv →
      slot bv.votes i = some v → slot vs.votes i = some v) := by
  intro vs
  obtain ⟨hacc, hext⟩ := foldl_apply_spec crypto ops (.empty chainID height round type valSet ext)
  have hvals : vs.vals = valSet.1 := congrArg Subtype.val hext.valSet
  refine ⟨bits_iff_of_agree hacc.bits, ?_, ?_, ?_, ?_, ?_⟩
  · rw [← filled_eq_nonNil (hacc.votes_length.trans (by rw [← hvals])), ← hvals]
    exact hacc.sum
  · intro k bv hbv
    have hbvacc := hacc.blocks k bv hbv
    refine ⟨bits_iff_of_agree hbvacc.bits, ?_, hbvacc.keyed⟩
    rw [← filled_eq_nonNil (hbvacc.votes_length.trans (by rw [← hvals])), ← hvals]
    exact hbvacc.sum
  · constructor
    · intro hne
      obtain ⟨b, hb⟩ := ne_none_iff_exists'.1 hne
      obtain ⟨bv, hbv, hmaj, -⟩ := hacc.majority b hb
      exact ⟨b.key, bv, hbv, hvals ▸ hmaj⟩
    · rintro ⟨k, bv, hbv, hmaj⟩ hnone
      exact hacc.minority hnone k bv hbv (by rw [Majority]; exact hvals ▸ hmaj)
  · intro b hb ops'
    exact (foldl_apply_spec crypto ops' hacc).2.maj23 b hb
  · intro b bv i v hb hbv hv
    obtain ⟨bv', hbv', -, hvotes⟩ := hacc.majority b hb
    obtain rfl := some.inj (hbv.symm.trans hbv')
    exact hvotes i v hv

end VoteSet

end CelestiaCore
