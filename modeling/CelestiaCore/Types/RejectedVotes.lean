import CelestiaCore.Program.Fallible
import CelestiaCore.Types.CommitRoundTrip

/-!
# Votes that are not added

A vote that `AddVote` does not add leaves the set as it was, unless it is for the block of the
majority and conflicts with an earlier vote: then it is written over that vote and not tallied.
-/
namespace CelestiaCore.VoteSet
open Wire Quorum Option Program

/-- A verified vote for the block of the majority conflicts with an earlier one, and no peer has
claimed the majority. -/
def Displaces (crypto : Crypto) (vs : VoteSet) (vote : Vote) : Prop :=
  ∃ i power existing, vs.check crypto vote = .ok (.verified i power) ∧
    slot vs.votes i = some existing ∧ vs.maj23.any (·.key = vote.blockID.key) = true ∧
    (vs.votesByBlock vote.blockID.key).any (·.peerMaj23) = false

structure Same (vs vs' : VoteSet) : Prop where
  votes : vs'.votes = vs.votes
  votesBitArray : vs'.votesBitArray = vs.votesBitArray
  sum : vs'.sum = vs.sum
  maj23 : vs'.maj23 = vs.maj23
  votesByBlock : vs'.votesByBlock = vs.votesByBlock

section AddVote
variable {crypto : Crypto} {vs vs' : VoteSet} {vote : Vote} {err : Option VoteError}

theorem tally_eq_none {k : Bytes} {conflicting : Option Vote} (h : vs.tally k conflicting = none) :
    conflicting.isSome ∧ (vs.votesByBlock k).any (·.peerMaj23) = false := by
  unfold tally at h
  split at h
  · next bv hbv =>
    split_ifs at h with hno
    exact ⟨hno.1, by rw [hbv, any_some, hno.2]⟩
  · next hnone =>
    split_ifs at h with hno
    exact ⟨hno, by rw [hnone, any_none]⟩

theorem same_iff_not_displaces (hacc : vs.Accounts)
    (h : vs.addVote crypto vote = .ok (vs', false, err)) :
    Same vs vs' ↔ ¬Displaces crypto vs vote := by
  rcases addVote_cases h with ⟨-, rfl, hno⟩ | ⟨i, power, conflicting, hcheck, hadd⟩
  · refine ⟨fun _ => ?_, fun _ => ⟨rfl, rfl, rfl, rfl, rfl⟩⟩
    rintro ⟨i, power, -, hcheck, -⟩
    exact hno i power hcheck
  obtain ⟨vs₁, hrec, ⟨-, rfl, htally⟩ | ⟨hadded, -⟩⟩ := addVerifiedVote_cases hadd
  swap
  · cases hadded
  obtain ⟨hsome, hclaim⟩ := tally_eq_none htally
  rcases record_cases hrec with ⟨-, rfl, -⟩ | ⟨existing, hex, rfl, hne, ⟨hmaj, rfl⟩ | ⟨hmaj, rfl⟩⟩
  · cases hsome
  · -- the vote is written over the earlier one, which was for another block
    have hlen : i < vs.votes.length := hacc.votes_length ▸ (verified_of_check hcheck).lt_size
    refine ⟨fun hsame => ?_, fun hno => absurd ⟨i, power, existing, hcheck, hex, hmaj, hclaim⟩ hno⟩
    have hslot : slot (vs.setVote i vote).votes i = some vote := by
      simp only [setVote, slot_set _ hlen, if_true]
    rw [hsame.votes, hex] at hslot
    exact absurd (congrArg Vote.blockID (some.inj hslot)) hne
  · refine ⟨fun _ => ?_, fun _ => ⟨rfl, rfl, rfl, rfl, rfl⟩⟩
    rintro ⟨-, -, -, -, -, hmaj', -⟩
    rw [hmaj] at hmaj'
    cases hmaj'

theorem AllTallied.apply {op : Op} (hacc : vs.Accounts) (h : vs.AllTallied)
    (hop : ∀ vote, op = .addVote vote → ¬Displaces crypto vs vote) :
    (vs.apply crypto op).AllTallied := by
  cases op with
  | addVote vote =>
    simp only [VoteSet.apply]
    split
    · next vs' added err hadd =>
      cases added with
      | false =>
        have hsame := (same_iff_not_displaces hacc hadd).2 (hop vote rfl)
        rw [AllTallied, hsame.votes, hsame.votesByBlock]
        exact h
      | true =>
        rcases addVote_cases hadd with ⟨hno, -⟩ | ⟨i, power, conflicting, hcheck, hadd⟩
        · cases hno
        obtain ⟨vs₁, hrec, ⟨hno, -⟩ | ⟨-, bv, htally, hcount⟩⟩ := addVerifiedVote_cases hadd
        · cases hno
        exact h.added hacc (verified_of_check hcheck) hrec htally hcount
    · exact h
  | setPeerMaj23 peerID b =>
    simp only [VoteSet.apply, setPeerMaj23]
    split
    · exact h
    intro j v hj
    obtain ⟨bv, hbv, hvote⟩ := h j v hj
    by_cases hkey : v.blockID.key = b.key
    · rw [hkey] at hbv
      exact ⟨{ bv with peerMaj23 := true }, by simp [hkey, hbv], hvote⟩
    · exact ⟨bv, by simpa [hkey] using hbv, hvote⟩

end AddVote

/-- A vote that is not added to a reachable set changes nothing exactly if it does not displace
another; and after a run without a displacing vote every canonical vote is tallied. -/
theorem rejected_changes_nothing (crypto : Crypto) (chainID : Bytes) (height round : Int)
    (type : SignedMsgType) (valSet : BoundedValidatorSet) (ext : Bool) (ops : List Op) :
    let vs := ops.foldl (apply crypto) (VoteSet.empty chainID height round type valSet ext)
    (∀ vote vs' err, vs.addVote crypto vote = .ok (vs', false, err) →
      (Same vs vs' ↔ ¬Displaces crypto vs vote)) ∧
    ((∀ before vote after, ops = before ++ .addVote vote :: after → ¬Displaces crypto
        (before.foldl (apply crypto) (VoteSet.empty chainID height round type valSet ext)) vote) →
      vs.AllTallied) := by
  have hacc (ops : List Op) := (foldl_apply_spec crypto ops
    (.empty chainID height round type valSet ext)).1
  refine ⟨fun vote vs' err h => same_iff_not_displaces (hacc ops) h, fun hops => ?_⟩
  induction ops using List.reverseRecOn with
  | nil => simp [AllTallied, VoteSet.empty]
  | append_singleton ops op ih =>
    rw [List.foldl_append]
    refine (ih fun before vote after h => hops before vote (after ++ [op]) (by simp [h])).apply
      (hacc ops) ?_
    rintro vote rfl
    exact hops ops vote [] rfl

def majorityOps : List Op :=
  [.addVote (firstPrecommit 0 (firstBlock 2)), .addVote (firstPrecommit 1 (firstBlock 2)),
    .addVote (firstPrecommit 2 (firstBlock 2))]

/-- After a majority for one block, validator 0 precommits another: the vote is rejected and nothing
changes. -/
theorem rejected_changes_nothing_conflicting :
    let vs := majorityOps.foldl (apply lenientCrypto.toCrypto) (precommitSet [1] 1 0 fourValidators)
    vs.maj23.isSome = true ∧ vs.AllTallied ∧ ∃ vs' err,
      vs.addVote lenientCrypto.toCrypto (firstPrecommit 0 (firstBlock 4)) =
        .ok (vs', false, some err) ∧ Same vs vs' := by
  intro vs
  obtain ⟨hsame, htallied⟩ := rejected_changes_nothing lenientCrypto.toCrypto [1] 1 0 .precommit
    fourValidators false majorityOps
  obtain ⟨⟨vs', added, err⟩, hadd, hno, herr⟩ : ∃ r, vs.addVote lenientCrypto.toCrypto
      (firstPrecommit 0 (firstBlock 4)) = .ok r ∧ r.2.1 = false ∧ r.2.2.isSome = true :=
    exists_ok (by decide +kernel)
  dsimp only at hno
  have hmaj : vs.maj23.any (·.key = (firstBlock 4).key) = false := by decide +kernel
  have hnone : ∀ n < 3, ((majorityOps.take n).foldl (apply lenientCrypto.toCrypto)
      (VoteSet.empty [1] 1 0 .precommit fourValidators false)).maj23 = none := by decide +kernel
  refine ⟨by decide +kernel, htallied ?_, ?_⟩
  · rintro before vote after hops ⟨-, -, -, -, -, hany, -⟩
    have hbefore : before = majorityOps.take before.length := by simp [hops]
    have hlen : before.length < 3 := by
      have := congrArg List.length hops
      simp only [majorityOps, List.length_cons, List.length_nil, List.length_append] at this
      omega
    rw [hbefore, hnone _ hlen] at hany
    cases hany
  · subst hno
    obtain ⟨err, rfl⟩ := isSome_iff_exists.1 herr
    refine ⟨vs', err, hadd, (hsame _ _ _ hadd).2 ?_⟩
    rintro ⟨-, -, -, -, -, hany, -⟩
    exact absurd hany (Bool.eq_false_iff.1 hmaj)

/-- Validator 0 precommits another block, the others make a majority, and then it precommits the
block of the majority. -/
theorem rejected_vote_displaces :
    let vs := [firstPrecommit 0 (firstBlock 4), firstPrecommit 1 (firstBlock 2),
      firstPrecommit 2 (firstBlock 2), firstPrecommit 3 (firstBlock 2)].foldl
        (fun vs vote => vs.apply lenientCrypto.toCrypto (.addVote vote))
        (precommitSet [1] 1 0 fourValidators)
    ∃ vs' err, vs.addVote lenientCrypto.toCrypto (firstPrecommit 0 (firstBlock 2)) =
        .ok (vs', false, some err) ∧
      vs'.votes ≠ vs.votes ∧ slot vs'.votes 0 = some (firstPrecommit 0 (firstBlock 2)) ∧
      ∃ bv, vs'.votesByBlock (firstBlock 2).key = some bv ∧ slot bv.votes 0 = none := by
  intro vs
  obtain ⟨⟨vs', added, err⟩, hadd, hno, herr, hvotes, hslot, hbv⟩ : ∃ r,
      vs.addVote lenientCrypto.toCrypto (firstPrecommit 0 (firstBlock 2)) = .ok r ∧
        r.2.1 = false ∧ r.2.2.isSome = true ∧ r.1.votes ≠ vs.votes ∧
        slot r.1.votes 0 = some (firstPrecommit 0 (firstBlock 2)) ∧
        (r.1.votesByBlock (firstBlock 2).key).any (fun bv => slot bv.votes 0 = none) = true :=
    exists_ok (by decide +kernel)
  dsimp only at hno
  subst hno
  obtain ⟨err, rfl⟩ := isSome_iff_exists.1 herr
  obtain ⟨bv, hbv, hnone⟩ := (any_eq_true ..).1 hbv
  exact ⟨vs', err, hadd, hvotes, hslot, bv, hbv, of_decide_eq_true hnone⟩

end CelestiaCore.VoteSet
