import CelestiaCore.Types.VoteSet

/-!
# Accounting of a vote set

The bit arrays, votes and sums of a vote set agree, per block and overall.
-/
namespace CelestiaCore
open Wire Quorum Option VoteSet BlockVotes List

def BitsAgree (bits : List Bool) (votes : List (Option Vote)) : Prop :=
  ∀ i, bits.getD i false = (slot votes i).isSome

variable {i : Nat}

theorem BitsAgree.set {bits : List Bool} {votes : List (Option Vote)} (h : BitsAgree bits votes)
    (v : Vote) (hb : i < bits.length) (hv : i < votes.length) :
    BitsAgree (bits.set i true) (votes.set i (some v)) := by
  intro j
  rw [slot_set _ hv, getD_eq_getElem?_getD, getElem?_set]
  by_cases hij : i = j
  · subst hij
    simp [hb]
  · simpa [hij, getD_eq_getElem?_getD] using h j

theorem BitsAgree.replicate (n : Nat) :
    BitsAgree (.replicate n false) (.replicate n (none : Option Vote)) := by
  intro i
  rw [slot_replicate, getD_eq_getElem?_getD, getElem?_replicate]
  split_ifs <;> rfl

/-- A tally of the votes for the block with key `k`. -/
structure BlockVotes.Accounts (vals : ValidatorSet) (k : Bytes) (bv : BlockVotes) : Prop where
  bits_length : bv.bitArray.length = vals.size
  votes_length : bv.votes.length = vals.size
  bits : BitsAgree bv.bitArray bv.votes
  sum : bv.sum = ∑ i ∈ filled bv.votes, vals.power i
  keyed : ∀ i v, slot bv.votes i = some v → v.blockID.key = k ∧ v.validatorIndex.toInt = i

namespace BlockVotes
variable {vals : ValidatorSet} {k : Bytes} {bv : BlockVotes} {vote : Vote} {i : Nat}

theorem Accounts.new (vals : ValidatorSet) (k : Bytes) (peerMaj23 : Bool) :
    (new peerMaj23 vals.size).Accounts vals k := by
  refine ⟨?_, ?_, .replicate _, ?_, ?_⟩ <;> simp [BlockVotes.new]

theorem Accounts.setPeerMaj23 (h : bv.Accounts vals k) (b : Bool) :
    ({ bv with peerMaj23 := b } : BlockVotes).Accounts vals k :=
  ⟨h.bits_length, h.votes_length, h.bits, h.sum, h.keyed⟩

theorem addVerifiedVote_of_none (power : Int) (hnone : slot bv.votes i = none) :
    bv.addVerifiedVote vote i power =
      { bv with
        bitArray := bv.bitArray.set i true
        votes := bv.votes.set i (some vote)
        sum := bv.sum + power } := by
  simp only [addVerifiedVote, hnone]

theorem slot_addVerifiedVote (vote : Vote) (power : Int) (hi : i < bv.votes.length)
    (hnone : slot bv.votes i = none) (j : Nat) :
    slot (bv.addVerifiedVote vote i power).votes j =
      if i = j then some vote else slot bv.votes j := by
  rw [addVerifiedVote_of_none _ hnone]
  exact slot_set _ hi

theorem Accounts.addVerifiedVote (h : bv.Accounts vals k) (hi : i < vals.size)
    (hnone : slot bv.votes i = none) (hkey : vote.blockID.key = k)
    (hindex : vote.validatorIndex.toInt = i) :
    (bv.addVerifiedVote vote i (vals.power i)).Accounts vals k := by
  have hlen : i < bv.votes.length := h.votes_length ▸ hi
  have hslot := slot_addVerifiedVote vote (vals.power i) hlen hnone
  rw [addVerifiedVote_of_none _ hnone] at hslot ⊢
  refine ⟨by simpa using h.bits_length, by simpa using h.votes_length,
    h.bits.set vote (h.bits_length ▸ hi) hlen, ?_, ?_⟩
  · simp only [h.sum, sum_filled_set_of_none _ hlen hnone]
  · intro j v hj
    rw [hslot] at hj
    split_ifs at hj with hij
    · cases hj
      exact ⟨hkey, hij ▸ hindex⟩
    · exact h.keyed j v hj

end BlockVotes

namespace VoteSet

abbrev vals (vs : VoteSet) : ValidatorSet := vs.valSet.1

def Majority (vs : VoteSet) (bv : BlockVotes) : Prop :=
  2 * vs.vals.total < 3 * bv.sum

/-- The bits, votes and sums agree, and every tallied vote has a canonical one beside it. -/
structure Ledger (vs : VoteSet) : Prop where
  bits_length : vs.votesBitArray.length = vs.vals.size
  votes_length : vs.votes.length = vs.vals.size
  bits : BitsAgree vs.votesBitArray vs.votes
  sum : vs.sum = ∑ i ∈ filled vs.votes, vs.vals.power i
  index : ∀ i v, slot vs.votes i = some v → v.validatorIndex.toInt = i
  blocks : ∀ k bv, vs.votesByBlock k = some bv → bv.Accounts vs.vals k
  backed : ∀ k bv i, vs.votesByBlock k = some bv → (slot bv.votes i).isSome →
    (slot vs.votes i).isSome

/-- The ledger, with the majority on the first block to pass two thirds. -/
structure Accounts (vs : VoteSet) : Prop extends Ledger vs where
  minority : vs.maj23 = none → ∀ k bv, vs.votesByBlock k = some bv → ¬vs.Majority bv
  majority : ∀ b, vs.maj23 = some b → ∃ bv, vs.votesByBlock b.key = some bv ∧ vs.Majority bv ∧
    ∀ i v, slot bv.votes i = some v → slot vs.votes i = some v

theorem Accounts.empty (chainID : Bytes) (height round : Int) (type : SignedMsgType)
    (valSet : BoundedValidatorSet) (ext : Bool) :
    (empty chainID height round type valSet ext).Accounts := by
  refine ⟨⟨?_, ?_, .replicate _, ?_, ?_, ?_, ?_⟩, ?_, ?_⟩ <;> simp [VoteSet.empty]

/-- What a vote that passes the checks is known to be. -/
structure Verified (crypto : Crypto) (vs : VoteSet) (vote : Vote) (i : Nat) (power : Int) :
    Prop where
  index : vote.validatorIndex.toInt = i
  lt_size : i < vs.vals.size
  power_eq : power = vs.vals.power i
  height : vote.height.toInt = vs.height
  round : vote.round.toInt = vs.round
  type : vote.type = vs.signedMsgType
  fresh : vs.getVote i vote.blockID.key = none
  signed : ∃ val, vs.vals.validators[i]? = some val ∧ vs.verifyVote crypto vote val = .ok none
  address : ∀ val, vs.vals.validators[i]? = some val → vote.validatorAddress = val.address

variable {vs : VoteSet} {vote : Vote}

theorem verified_of_check {crypto : Crypto} {power : Int}
    (h : vs.check crypto vote = .ok (.verified i power)) : Verified crypto vs vote i power := by
  simp only [check] at h
  split_ifs at h with hneg haddr hstep
  · cases h
  · cases h
  · cases h
  split at h
  · cases h
  next val hval =>
  split_ifs at h with hne
  · cases h
  split at h
  · split_ifs at h <;> cases h
  next hfresh =>
  split at h
  · cases h
  · cases h
  next hverify =>
  cases h
  simp only [ValidatorSet.getByIndex, if_neg hneg] at hval
  obtain ⟨hlt, -⟩ := List.getElem?_eq_some_iff.1 hval
  push Not at hstep
  refine ⟨?_, hlt, ?_, hstep.1, hstep.2.1, hstep.2.2, hfresh, ⟨val, hval, hverify⟩, ?_⟩
  · omega
  · simp only [ValidatorSet.power, hval, map_some, getD_some]
  · intro val' hval'
    obtain rfl := some.inj (hval.symm.trans hval')
    exact not_not.1 hne

theorem getVote_eq_none {k : Bytes} (h : vs.getVote i k = none) :
    (∀ v, slot vs.votes i = some v → v.blockID.key ≠ k) ∧
      ∀ bv, vs.votesByBlock k = some bv → slot bv.votes i = none := by
  unfold getVote at h
  split at h
  · next existing hex =>
    split_ifs at h with hkey
    refine ⟨?_, ?_⟩
    · intro v hv
      obtain rfl := some.inj (hex.symm.trans hv)
      exact hkey
    · intro bv hbv
      simpa [hbv] using h
  · next hex =>
    refine ⟨?_, ?_⟩
    · intro v hv
      simp [hex] at hv
    · intro bv hbv
      simpa [hbv] using h

/-- The part of a vote set that recording a canonical vote does not touch. -/
structure SameTallies (vs vs' : VoteSet) : Prop where
  valSet : vs'.valSet = vs.valSet
  maj23 : vs'.maj23 = vs.maj23
  votesByBlock : vs'.votesByBlock = vs.votesByBlock

theorem Accounts.setVote
    (h : vs.Accounts) (hi : i < vs.vals.size) (hindex : vote.validatorIndex.toInt = i)
    (hkeep : ∀ b bv, vs.maj23 = some b → vs.votesByBlock b.key = some bv → slot bv.votes i = none)
    (sum : Int) (hsum : sum = ∑ j ∈ filled (vs.votes.set i (some vote)), vs.vals.power j) :
    ({ vs.setVote i vote with sum := sum } : VoteSet).Accounts := by
  have hlen : i < vs.votes.length := h.votes_length ▸ hi
  have hslot : ∀ j, slot (vs.votes.set i (some vote)) j =
      if i = j then some vote else slot vs.votes j := fun j => slot_set _ hlen
  refine ⟨⟨by simpa [VoteSet.setVote] using h.bits_length,
    by simpa [VoteSet.setVote] using h.votes_length,
    h.bits.set vote (h.bits_length ▸ hi) hlen, hsum, ?_, h.blocks, ?_⟩, h.minority, ?_⟩
  · intro j v hj
    simp only [VoteSet.setVote, hslot] at hj
    split_ifs at hj with hij
    · cases hj
      exact hij ▸ hindex
    · exact h.index j v hj
  · intro k bv j hbv hj
    simp only [VoteSet.setVote, hslot]
    split_ifs
    · rfl
    · exact h.backed k bv j hbv hj
  · intro b hb
    obtain ⟨bv, hbv, hmaj, hvotes⟩ := h.majority b hb
    refine ⟨bv, hbv, hmaj, ?_⟩
    intro j v hj
    simp only [VoteSet.setVote, hslot]
    split_ifs with hij
    · subst hij
      rw [hkeep b bv hb hbv] at hj
      cases hj
    · exact hvotes j v hj

variable {conflicting : Option Vote}

theorem record_cases {vs vs₁ : VoteSet} {power : Int}
    (h : vs.record vote vote.blockID.key i power = .ok (vs₁, conflicting)) :
    (slot vs.votes i = none ∧ conflicting = none ∧
      vs₁ = { vs.setVote i vote with sum := vs.sum + power }) ∨
    ∃ existing, slot vs.votes i = some existing ∧ conflicting = some existing ∧
      existing.blockID ≠ vote.blockID ∧
      (vs.maj23.any (·.key = vote.blockID.key) = true ∧ vs₁ = vs.setVote i vote ∨
        vs.maj23.any (·.key = vote.blockID.key) = false ∧ vs₁ = vs) := by
  unfold record at h
  split at h
  · next existing hex =>
    split_ifs at h with hsame hmaj
    · cases h
      exact .inr ⟨existing, hex, rfl, hsame, .inl ⟨hmaj, rfl⟩⟩
    · cases h
      exact .inr ⟨existing, hex, rfl, hsame, .inr ⟨by simpa using hmaj, rfl⟩⟩
  · next hnone =>
    cases h
    exact .inl ⟨hnone, rfl, rfl⟩

/-- Recording the canonical vote: the tallies stay and the validator's slot is filled, with the vote
itself unless it conflicts with one for a block without the majority. -/
theorem record_spec {crypto : Crypto} {vs vs' : VoteSet} {power : Int}
    (h : vs.Accounts) (hv : Verified crypto vs vote i power)
    (hrec : vs.record vote vote.blockID.key i power = .ok (vs', conflicting)) :
    vs'.Accounts ∧ SameTallies vs vs' ∧ (slot vs'.votes i).isSome ∧
      (conflicting = none ∨ vs.maj23.any (·.key = vote.blockID.key) →
        slot vs'.votes i = some vote) := by
  have hlen : i < vs.votes.length := h.votes_length ▸ hv.lt_size
  have hself : slot (vs.votes.set i (some vote)) i = some vote := by simp [slot_set _ hlen]
  obtain ⟨-, htally⟩ := getVote_eq_none hv.fresh
  rcases record_cases hrec with ⟨hex, -, rfl⟩ | ⟨existing, hex, rfl, -, ⟨hmaj, rfl⟩ | ⟨hmaj, rfl⟩⟩
  · refine ⟨?_, ⟨rfl, rfl, rfl⟩, by simp [setVote, hself], fun _ => hself⟩
    refine h.setVote hv.lt_size hv.index ?_ _ ?_
    · intro b bv hb hbv
      by_contra hne
      have := h.backed b.key bv i hbv (isSome_iff_ne_none.2 hne)
      simp [hex] at this
    · rw [sum_filled_set_of_none _ hlen hex, h.sum, hv.power_eq]
  · refine ⟨?_, ⟨rfl, rfl, rfl⟩, by simp [setVote, hself], fun _ => hself⟩
    refine h.setVote hv.lt_size hv.index ?_ vs.sum ?_
    · intro b bv hb hbv
      rw [hb] at hmaj
      have hkey : b.key = vote.blockID.key := by simpa using hmaj
      exact htally bv (hkey ▸ hbv)
    · rw [filled_set_of_some hlen (by simp [hex]), h.sum]
  · refine ⟨h, ⟨rfl, rfl, rfl⟩, by simp [hex], ?_⟩
    rintro (hc | hc)
    · cases hc
    · simp [hmaj] at hc

theorem tally_spec {k : Bytes} {bv : BlockVotes}
    (h : vs.Accounts) (hbv : vs.tally k conflicting = some bv) :
    bv.Accounts vs.vals k ∧ (vs.votesByBlock k = some bv ∨
      vs.votesByBlock k = none ∧ conflicting = none ∧ bv = .new false vs.vals.size) := by
  unfold tally at hbv
  split at hbv
  · next bv' hbv' =>
    split_ifs at hbv
    obtain rfl := some.inj hbv
    exact ⟨h.blocks k bv' hbv', Or.inl hbv'⟩
  · next hnone =>
    split_ifs at hbv with hc
    cases hbv
    exact ⟨.new vs.vals k false, Or.inr ⟨hnone, by simpa using hc, rfl⟩⟩

section Tally
variable {vs : VoteSet} {k : Bytes} {bv bv₀ : BlockVotes} (hbv : vs.tally k conflicting = some bv)
include hbv

theorem eq_of_tally (hold : vs.votesByBlock k = some bv₀) : bv₀ = bv := by
  simp only [tally, hold] at hbv
  split_ifs at hbv
  exact some.inj hbv

/-- A tally that is not in the set has no votes. -/
theorem stored_of_slot {j : Nat} {v : Vote} (hj : slot bv.votes j = some v) :
    vs.votesByBlock k = some bv := by
  unfold tally at hbv
  split at hbv
  · next bv' hold =>
    split_ifs at hbv
    rw [hold, hbv]
  · split_ifs at hbv
    cases hbv
    simp [BlockVotes.new] at hj

end Tally

theorem copyVotes_length {votes bvotes : List (Option Vote)} (h : bvotes.length = votes.length) :
    (copyVotes votes bvotes).length = votes.length := by
  simp [copyVotes, h]

theorem slot_copyVotes {votes bvotes : List (Option Vote)} (h : bvotes.length = votes.length)
    (i : Nat) : slot (copyVotes votes bvotes) i = (slot bvotes i).or (slot votes i) := by
  by_cases hi : i < votes.length
  · simp [slot, copyVotes, getD_eq_getElem?_getD, hi, h ▸ hi]
  · rw [slot_of_length_le (by rw [copyVotes_length h]; omega), slot_of_length_le (by omega),
      slot_of_length_le (by omega)]
    rfl

theorem quorum_le_iff (total sum : Int) : total * 2 / 3 + 1 ≤ sum ↔ 2 * total < 3 * sum := by
  omega

/-- The tallies after a vote was added to the one for `k`. -/
def withTally (vs : VoteSet) (k : Bytes) (bv : BlockVotes) : VoteSet :=
  { vs with votesByBlock := Function.update vs.votesByBlock k (some bv) }

theorem forall_withTally {k k' : Bytes} {bv bv' : BlockVotes}
    {P : Bytes → BlockVotes → Prop} (hbv : P k bv)
    (h : ∀ k bv, vs.votesByBlock k = some bv → P k bv)
    (hk' : (vs.withTally k bv).votesByBlock k' = some bv') : P k' bv' := by
  by_cases hk : k' = k
  · subst hk
    obtain rfl : bv = bv' := by simpa [withTally] using hk'
    exact hbv
  · exact h k' bv' (by simpa [withTally, hk] using hk')

section Count
variable {vs : VoteSet} {bv bv' : BlockVotes} {k : Bytes}

theorem Ledger.withTally (h : vs.Ledger) (hbv : bv'.Accounts vs.vals k)
    (hbacked : ∀ j, (slot bv'.votes j).isSome → (slot vs.votes j).isSome) :
    (vs.withTally k bv').Ledger :=
  ⟨h.bits_length, h.votes_length, h.bits, h.sum, h.index, fun _ _ => forall_withTally hbv h.blocks,
    fun _ _ j => forall_withTally
      (P := fun _ bv => (slot bv.votes j).isSome → (slot vs.votes j).isSome) (hbacked j)
      fun k bv => h.backed k bv j⟩

theorem Accounts.withTally (h : vs.Accounts) (hbv : bv'.Accounts vs.vals k)
    (hbacked : ∀ j, (slot bv'.votes j).isSome → (slot vs.votes j).isSome)
    (hminority : vs.maj23 = none → ¬vs.Majority bv')
    (hgrow : ∀ bv, vs.votesByBlock k = some bv → bv.sum ≤ bv'.sum)
    (hcanon : ∀ b, vs.maj23 = some b → b.key = k → ∀ j v, slot bv'.votes j = some v →
      slot vs.votes j = some v) : (vs.withTally k bv').Accounts := by
  refine ⟨h.toLedger.withTally hbv hbacked, fun hnone _ _ => forall_withTally
    (P := fun _ bv => ¬vs.Majority bv) (hminority hnone) (h.minority hnone), ?_⟩
  intro b hb
  obtain ⟨bv₀, hold, hmaj, hvotes⟩ := h.majority b hb
  by_cases hkey : b.key = k
  · refine ⟨bv', by simp [VoteSet.withTally, hkey], ?_, hcanon b hb hkey⟩
    have hle := hgrow bv₀ (hkey ▸ hold)
    have hmaj₀ : 2 * vs.vals.total < 3 * bv₀.sum := hmaj
    show 2 * vs.vals.total < 3 * bv'.sum
    omega
  · exact ⟨bv₀, by simpa [VoteSet.withTally, hkey] using hold, hmaj, hvotes⟩

/-- Setting the majority and copying its votes over the canonical ones completes the accounts. -/
theorem Ledger.setMaj23 {b : BlockID} (h : vs.Ledger) (hbv : vs.votesByBlock b.key = some bv)
    (hmaj : vs.Majority bv) :
    ({ vs with maj23 := some b, votes := copyVotes vs.votes bv.votes } : VoteSet).Accounts := by
  have hacc := h.blocks b.key bv hbv
  have hlen : bv.votes.length = vs.votes.length := hacc.votes_length.trans h.votes_length.symm
  have hslot := slot_copyVotes hlen
  have hsome : ∀ j, (slot (copyVotes vs.votes bv.votes) j).isSome = (slot vs.votes j).isSome := by
    intro j
    rw [hslot]
    cases hj : slot bv.votes j with
    | none => simp
    | some v =>
      have := h.backed b.key bv j hbv (by simp [hj])
      simp [this]
  have hfilled : filled (copyVotes vs.votes bv.votes) = filled vs.votes := by
    ext j
    rw [mem_filled, mem_filled, hsome]
  refine ⟨⟨h.bits_length, (copyVotes_length hlen).trans h.votes_length, ?_, ?_, ?_, h.blocks, ?_⟩,
    by simp, ?_⟩
  · intro j
    rw [hsome]
    exact h.bits j
  · rw [hfilled]
    exact h.sum
  · intro j v hj
    simp only [hslot, or_eq_some_iff] at hj
    rcases hj with hj | ⟨-, hj⟩
    · exact (hacc.keyed j v hj).2
    · exact h.index j v hj
  · intro k' bv₀ j hbv₀ hj
    simp only [hsome]
    exact h.backed k' bv₀ j hbv₀ hj
  · intro b' hb'
    cases hb'
    refine ⟨bv, hbv, hmaj, ?_⟩
    intro j v hj
    simp [hslot, hj]

theorem not_majority_of_tally (h : vs.Accounts)
    (hbv : vs.tally k conflicting = some bv) (hnone : vs.maj23 = none) : ¬vs.Majority bv := by
  obtain ⟨-, hold | ⟨-, -, rfl⟩⟩ := tally_spec h hbv
  · exact h.minority hnone k bv hold
  · have hpos : 0 ≤ vs.vals.total := vs.valSet.2.total_nonneg
    simp only [Majority, BlockVotes.new]
    omega

/-- Counting a verified vote in its tally never panics, keeps the accounts and any majority. -/
theorem count_spec (h : vs.Accounts) (hi : i < vs.vals.size)
    (hindex : vote.validatorIndex.toInt = i) (hbv : vs.tally vote.blockID.key conflicting = some bv)
    (hfresh : slot bv.votes i = none) (hsome : (slot vs.votes i).isSome)
    (hcanon : vs.maj23.any (·.key = vote.blockID.key) → slot vs.votes i = some vote) :
    ∃ vs', vs.count vote vote.blockID.key i (vs.vals.power i) bv = .ok vs' ∧ vs'.Accounts ∧
      ∀ b, vs.maj23 = some b → vs'.maj23 = some b := by
  obtain ⟨hacc, -⟩ := tally_spec h hbv
  have hacc' := hacc.addVerifiedVote hi hfresh rfl hindex
  have hnotmaj := not_majority_of_tally h hbv
  have hslot := slot_addVerifiedVote vote (vs.vals.power i) (hacc.votes_length ▸ hi) hfresh
  set bv' := bv.addVerifiedVote vote i (vs.vals.power i) with hbv'
  have hbacked : ∀ j, (slot bv'.votes j).isSome → (slot vs.votes j).isSome := by
    intro j hj
    rw [hslot] at hj
    split_ifs at hj with hij
    · exact hij ▸ hsome
    · obtain ⟨v, hv⟩ := isSome_iff_exists.1 hj
      exact h.backed _ bv j (stored_of_slot hbv hv) hj
  have hgrow : ∀ bv₀, vs.votesByBlock vote.blockID.key = some bv₀ → bv₀.sum ≤ bv'.sum := by
    intro bv₀ hold
    have hpow : 0 ≤ vs.vals.power i := vs.valSet.2.power_nonneg i
    rw [eq_of_tally hbv hold, hbv', addVerifiedVote_of_none _ hfresh]
    dsimp only
    omega
  have hvotes : ∀ b, vs.maj23 = some b → b.key = vote.blockID.key →
      ∀ j v, slot bv'.votes j = some v → slot vs.votes j = some v := by
    intro b hb hkey j v hj
    rw [hslot] at hj
    split_ifs at hj with hij
    · rw [← hij, ← hj]
      exact hcanon (by simp [hb, hkey])
    · obtain ⟨bv₀, hold, -, hv₀⟩ := h.majority b hb
      obtain rfl := eq_of_tally hbv (hkey ▸ hold)
      exact hv₀ j v hj
  simp only [count, vs.valSet.2.totalVotingPower_eq, ← hbv']
  split_ifs with hcross
  · obtain ⟨-, hquorum, hnone⟩ := hcross
    have hmaj : vs.Majority bv' := (quorum_le_iff _ _).1 hquorum
    exact ⟨_, rfl, (h.toLedger.withTally hacc' hbacked).setMaj23 (by simp [withTally]) hmaj,
      by simp [hnone]⟩
  · refine ⟨_, rfl, h.withTally hacc' hbacked ?_ hgrow hvotes, fun b hb => hb⟩
    intro hnone hmaj
    have hq := (quorum_le_iff _ _).2 hmaj
    have hlt : bv.sum < vs.vals.total * 2 / 3 + 1 := by
      by_contra hge
      exact hnotmaj hnone ((quorum_le_iff _ _).1 (not_lt.1 hge))
    exact hcross ⟨hlt, hq, hnone⟩

end Count

end VoteSet

end CelestiaCore
