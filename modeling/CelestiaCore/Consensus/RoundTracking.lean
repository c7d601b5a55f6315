import CelestiaCore.Consensus.CommitWait
import CelestiaCore.Program.Fallible

/-!
# Rounds of a height vote set

Rounds up to the current one are tracked, and a peer adds at most two others. `POLInfo` looks at the
rounds from 0 on, although `SetRound` also tracks round -1.
-/
namespace CelestiaCore.Consensus.HeightVoteSet
open Wire Quorum Relation List Function Program

variable {crypto : Crypto} {hvs hvs' : HeightVoteSet} {r : Int}

def Tracked (hvs : HeightVoteSet) (r : Int) : Prop := (hvs.roundVoteSets r).isSome = true

instance (hvs : HeightVoteSet) (r : Int) : Decidable (hvs.Tracked r) :=
  inferInstanceAs (Decidable (_ = true))

theorem tracked_withRound {r' : Int} : (hvs.withRound r').Tracked r ↔ r = r' ∨ hvs.Tracked r := by
  unfold Tracked withRound
  by_cases hr : r = r'
  · simp [hr]
  · simp [hr]

theorem addRounds_tracked {r' : Int} {n : Nat} (h : hvs.addRounds r' n = .ok hvs') :
    (∀ r, hvs'.Tracked r ↔ hvs.Tracked r ∨ r' ≤ r ∧ r < r' + n) ∧
      hvs'.peerCatchupRounds = hvs.peerCatchupRounds := by
  induction n generalizing hvs r' with
  | zero =>
    cases h
    refine ⟨fun r => ?_, rfl⟩
    simp only [Nat.cast_zero, add_zero]
    constructor
    · exact .inl
    · rintro (ht | ht)
      · exact ht
      · omega
  | succ n ih =>
    unfold addRounds at h
    split_ifs at h with hsome
    · obtain ⟨htracked, hpeers⟩ := ih h
      refine ⟨fun r => ?_, hpeers⟩
      rw [htracked r]
      by_cases hr : r = r'
      · subst hr
        exact ⟨fun _ => .inl hsome, fun _ => .inl hsome⟩
      constructor
      · rintro (ht | ht)
        · exact .inl ht
        · exact .inr (by omega)
      · rintro (ht | ht)
        · exact .inl ht
        · exact .inr (by omega)
    · split at h
      · cases h
      · next hvs₁ hadd =>
        obtain ⟨-, rfl⟩ := addRound_spec hadd
        obtain ⟨htracked, hpeers⟩ := ih h
        refine ⟨fun r => ?_, hpeers⟩
        rw [htracked r, tracked_withRound]
        constructor
        · rintro ((ht | ht) | ht)
          · exact .inr (by omega)
          · exact .inl ht
          · exact .inr (by omega)
        · rintro (ht | ht)
          · exact .inl (.inr ht)
          · by_cases hr : r = r'
            · exact .inl (.inl hr)
            · exact .inr (by omega)

theorem setRound_tracked {round : Int} (h : hvs.setRound round = .ok hvs') :
    (∀ r, hvs'.Tracked r ↔ hvs.Tracked r ∨ hvs.round - 1 ≤ r ∧ r ≤ round) ∧
      hvs'.peerCatchupRounds = hvs.peerCatchupRounds := by
  simp only [setRound] at h
  split_ifs at h
  split at h
  · cases h
  next hvs₁ hadd =>
  cases h
  obtain ⟨htracked, hpeers⟩ := addRounds_tracked hadd
  refine ⟨fun r => ?_, hpeers⟩
  have hsame : ({ hvs₁ with round := round } : HeightVoteSet).Tracked r ↔ hvs₁.Tracked r := Iff.rfl
  rw [hsame, htracked r]
  constructor
  · rintro (ht | ht)
    · exact .inl ht
    · exact .inr (by omega)
  · rintro (ht | ht)
    · exact .inl ht
    · exact .inr (by omega)

theorem setVoteSet_tracked {t : SignedMsgType} {vs : VoteSet} {r' : Int} :
    (hvs.setVoteSet r' t vs).Tracked r ↔ hvs.Tracked r := by
  unfold Tracked setVoteSet
  by_cases hr : r = r'
  · simp [hr]
  · simp [hr]

theorem addToSet_tracked {vote : Vote} :
    (∀ r, (hvs.addToSet crypto vote).1.Tracked r ↔ hvs.Tracked r) ∧
      (hvs.addToSet crypto vote).1.peerCatchupRounds = hvs.peerCatchupRounds := by
  unfold addToSet
  split
  · exact ⟨fun _ => Iff.rfl, rfl⟩
  · split
    · exact ⟨fun _ => Iff.rfl, rfl⟩
    · exact ⟨fun _ => setVoteSet_tracked, rfl⟩

theorem isSome_getVoteSet {t : SignedMsgType} : (hvs.getVoteSet r t).isSome = true ↔
    hvs.Tracked r := by
  simp [getVoteSet, Tracked]

/-- `AddVote` tracks no other round, or that of the vote for a peer that has not been given two. -/
theorem addVote_tracked (crypto : Crypto) (hvs : HeightVoteSet) (vote : Vote) (peerID : P2PID)
    (ext : Bool) :
    let hvs' := (hvs.addVote crypto vote peerID ext).1
    (∀ r, hvs'.Tracked r ↔ hvs.Tracked r) ∧ hvs'.peerCatchupRounds = hvs.peerCatchupRounds ∨
      ¬hvs.Tracked vote.round.toInt ∧ (∀ r, hvs'.Tracked r ↔ r = vote.round.toInt ∨ hvs.Tracked r) ∧
        (hvs.peerCatchupRounds peerID).length < 2 ∧
        hvs'.peerCatchupRounds = update hvs.peerCatchupRounds peerID
          (hvs.peerCatchupRounds peerID ++ [vote.round.toInt]) := by
  simp only [addVote]
  split_ifs with hexts htype hsome hlen
  · exact .inl ⟨fun _ => Iff.rfl, rfl⟩
  · exact .inl ⟨fun _ => Iff.rfl, rfl⟩
  · exact .inl addToSet_tracked
  · split
    · exact .inl ⟨fun _ => Iff.rfl, rfl⟩
    · next hvs₁ hadd =>
      obtain ⟨-, rfl⟩ := addRound_spec hadd
      refine .inr ⟨fun ht => hsome (isSome_getVoteSet.2 ht), fun r => ?_, hlen, ?_⟩
      · rw [addToSet_tracked.1 r]
        exact tracked_withRound
      · rw [addToSet_tracked.2]
        rfl
  · exact .inl ⟨fun _ => Iff.rfl, rfl⟩

theorem setPeerMaj23_tracked (hvs : HeightVoteSet) (t : SignedMsgType) (peerID : P2PID)
    (b : BlockID) (r' : Int) : (∀ r, (hvs.setPeerMaj23 r' t peerID b).1.Tracked r ↔ hvs.Tracked r) ∧
      (hvs.setPeerMaj23 r' t peerID b).1.peerCatchupRounds = hvs.peerCatchupRounds := by
  simp only [setPeerMaj23]
  split_ifs
  · exact ⟨fun _ => Iff.rfl, rfl⟩
  · split
    · exact ⟨fun _ => Iff.rfl, rfl⟩
    · exact ⟨fun _ => setVoteSet_tracked, rfl⟩

/-! ## Calls -/

def created (before after : HeightVoteSet) (peerID : P2PID) (r : Int) : List (P2PID × Int) :=
  if ¬before.Tracked r ∧ after.Tracked r then [(peerID, r)] else []

/-- A call, with the round that it tracks for a peer. The rounds that are set do not go back. -/
inductive Step (crypto : Crypto) : HeightVoteSet → List (P2PID × Int) → HeightVoteSet → Prop where
  | setRound {hvs hvs' : HeightVoteSet} {round : Int} (hle : hvs.round ≤ round)
      (h : hvs.setRound round = .ok hvs') : Step crypto hvs [] hvs'
  | addVote {hvs : HeightVoteSet} (vote : Vote) (peerID : P2PID) (ext : Bool) :
    Step crypto hvs
      (created hvs (hvs.addVote crypto vote peerID ext).1 peerID vote.round.toInt)
      (hvs.addVote crypto vote peerID ext).1
  | setPeerMaj23 {hvs : HeightVoteSet} (r : Int) (t : SignedMsgType) (peerID : P2PID)
    (b : BlockID) :
    Step crypto hvs [] (hvs.setPeerMaj23 r t peerID b).1

/-- Any calls, with the rounds that they have tracked for peers. -/
inductive Calls (crypto : Crypto) (start : HeightVoteSet) :
    List (P2PID × Int) → HeightVoteSet → Prop where
  | none : Calls crypto start [] start
  | next {log new : List (P2PID × Int)} {hvs hvs' : HeightVoteSet} (h : Calls crypto start log hvs)
      (hstep : Step crypto hvs new hvs') : Calls crypto start (log ++ new) hvs'

/-- The rounds of a set and the peers that are responsible for them. -/
structure RoundInv (crypto : Crypto) (log : List (P2PID × Int)) (hvs : HeightVoteSet) : Prop where
  consistent : hvs.Consistent crypto fun _ => True
  round : 0 ≤ hvs.round
  tracked : ∀ r, 0 ≤ r → r ≤ hvs.round → hvs.Tracked r
  catchup : ∀ peerID, hvs.peerCatchupRounds peerID = (log.filter (·.1 = peerID)).map (·.2)
  two : ∀ peerID, (hvs.peerCatchupRounds peerID).length ≤ 2
  logged : ∀ e ∈ log, hvs.Tracked e.2
  nodup : (log.map (·.2)).Nodup

variable {log new : List (P2PID × Int)}

theorem RoundInv.frame (h : RoundInv crypto log hvs) (hcons : hvs'.Consistent crypto fun _ => True)
    (hround : hvs.round ≤ hvs'.round) (htracked : ∀ r, hvs.Tracked r → hvs'.Tracked r)
    (hnew : ∀ r, hvs.round < r → r ≤ hvs'.round → hvs'.Tracked r)
    (hpeers : hvs'.peerCatchupRounds = hvs.peerCatchupRounds) : RoundInv crypto log hvs' where
  consistent := hcons
  round := h.round.trans hround
  tracked := fun r h0 hr => by
    by_cases hle : r ≤ hvs.round
    · exact htracked r (h.tracked r h0 hle)
    · exact hnew r (not_le.1 hle) hr
  catchup := hpeers ▸ h.catchup
  two := hpeers ▸ h.two
  logged := fun e he => htracked _ (h.logged e he)
  nodup := h.nodup

theorem RoundInv.step (h : RoundInv crypto log hvs) (hstep : Step crypto hvs new hvs') :
    RoundInv crypto (log ++ new) hvs' ∧ Extends hvs hvs' := by
  cases hstep with
  | setRound hle hset =>
    obtain ⟨hext, hround, -, hcons⟩ := setRound_spec crypto (fun _ => True) hset
    obtain ⟨htracked, hpeers⟩ := setRound_tracked hset
    rw [append_nil]
    refine ⟨h.frame (hcons h.consistent) (hround ▸ hle) (fun r hr => (htracked r).2 (.inl hr)) ?_
      hpeers, hext⟩
    intro r hlt hr
    exact (htracked r).2 (.inr (by omega))
  | setPeerMaj23 r t peerID b =>
    obtain ⟨hext, hround, -, hcons⟩ := setPeerMaj23_spec h.consistent r t peerID b
    obtain ⟨htracked, hpeers⟩ := setPeerMaj23_tracked hvs t peerID b r
    rw [append_nil]
    refine ⟨h.frame hcons hround.ge (fun r hr => (htracked r).2 hr) ?_ hpeers, hext⟩
    intro r hlt hr
    omega
  | addVote vote peerID ext =>
    obtain ⟨hext, hround, -, hcons, -⟩ :=
      @addVote_spec crypto (fun _ => True) hvs vote peerID ext h.consistent trivial
    refine ⟨?_, hext⟩
    rcases addVote_tracked crypto hvs vote peerID ext with
      ⟨htracked, hpeers⟩ | ⟨hnot, htracked, hlen, hpeers⟩
    · -- no other round is tracked
      rw [created, if_neg fun hc => hc.1 ((htracked _).1 hc.2), append_nil]
      refine h.frame hcons hround.ge (fun r hr => (htracked r).2 hr) ?_ hpeers
      intro r hlt hr
      omega
    · rw [created, if_pos ⟨hnot, (htracked _).2 (.inl rfl)⟩]
      constructor
      case consistent => exact hcons
      case round => exact h.round.trans hround.ge
      case tracked =>
        intro r h0 hr
        exact (htracked r).2 (.inr (h.tracked r h0 (hround ▸ hr)))
      case catchup =>
        intro peer
        rw [hpeers]
        by_cases hp : peer = peerID
        · subst hp
          simp [h.catchup peer]
        · rw [update_of_ne hp, h.catchup peer]
          simp [Ne.symm hp]
      case two =>
        intro peer
        rw [hpeers]
        by_cases hp : peer = peerID
        · subst hp
          rw [update_self, length_append, length_singleton]
          omega
        · rw [update_of_ne hp]
          exact h.two peer
      case logged =>
        intro e he
        rcases mem_append.1 he with he | he
        · exact (htracked _).2 (.inr (h.logged e he))
        · rw [mem_singleton.1 he]
          exact (htracked _).2 (.inl rfl)
      case nodup =>
        rw [map_append, map_singleton, nodup_append]
        refine ⟨h.nodup, nodup_singleton _, ?_⟩
        intro a ha b hb
        rw [mem_singleton.1 hb]
        rintro rfl
        obtain ⟨e, he, heq⟩ := mem_map.1 ha
        have hround' : e.2 = vote.round.toInt := heq
        exact hnot (hround' ▸ h.logged e he)

theorem RoundInv.calls {log' : List (P2PID × Int)} (h : RoundInv crypto log hvs)
    (hcalls : Calls crypto hvs log' hvs') : RoundInv crypto (log ++ log') hvs' ∧
      Extends hvs hvs' := by
  induction hcalls with
  | none =>
    rw [append_nil]
    exact ⟨h, .refl hvs⟩
  | next _ hstep ih =>
    obtain ⟨hinv, hext⟩ := ih
    obtain ⟨hinv', hext'⟩ := hinv.step hstep
    rw [← append_assoc]
    exact ⟨hinv', hext.trans hext'⟩

theorem RoundInv.start (crypto : Crypto) (chainID : Bytes) (height : Int)
    (valSet : BoundedValidatorSet)
    (ext : Bool) : RoundInv crypto [] (HeightVoteSet.new chainID height valSet ext) where
  consistent := .new crypto _ chainID height valSet ext
  round := le_refl 0
  tracked := fun r h0 hr => by
    have hr' : r ≤ 0 := hr
    obtain rfl : r = 0 := by omega
    rfl
  catchup := fun _ => rfl
  two := fun _ => Nat.zero_le 2
  logged := nofun
  nodup := nodup_nil

theorem addVote_of_tracked {vote : Vote} (ht : hvs.Tracked vote.round.toInt)
    (htype : vote.type.isVoteTypeValid = true) (peerID : P2PID) :
    hvs.addVote crypto vote peerID hvs.extensionsEnabled = hvs.addToSet crypto vote ∧
      (hvs.addToSet crypto vote).2 ≠ .ok (false, some .unwantedRound) ∧
      (hvs.addToSet crypto vote).2 ≠ .error .nilVoteSet := by
  have hsome := (isSome_getVoteSet (t := vote.type)).2 ht
  refine ⟨?_, ?_⟩
  · rw [addVote, if_neg (not_not.2 rfl), if_neg (by simp [htype]), if_pos hsome]
  · obtain ⟨vs, hvs⟩ := Option.isSome_iff_exists.1 hsome
    unfold addToSet
    rw [hvs]
    dsimp only
    split
    · simp
    · next vs' added err _ => cases err <;> simp

theorem polInfoBelow_spec (hvs : HeightVoteSet) (n : Nat) : hvs.polInfoBelow n = (-1, .zero) ∧
        (∀ r : Int, 0 ≤ r → r < n → twoThirdsMajority (hvs.prevotes r) = none) ∨
      0 ≤ (hvs.polInfoBelow n).1 ∧ (hvs.polInfoBelow n).1 < n ∧
        twoThirdsMajority (hvs.prevotes (hvs.polInfoBelow n).1) = some (hvs.polInfoBelow n).2 ∧
        ∀ r : Int, (hvs.polInfoBelow n).1 < r → r < n →
          twoThirdsMajority (hvs.prevotes r) = none := by
  induction n with
  | zero =>
    refine .inl ⟨rfl, ?_⟩
    intro r h0 hr
    omega
  | succ n ih =>
    cases hmaj : twoThirdsMajority (hvs.prevotes n) with
    | some b =>
      rw [polInfoBelow, hmaj]
      refine .inr ⟨Int.natCast_nonneg n, by dsimp only; omega, hmaj, ?_⟩
      intro r hlt hr
      dsimp only at hlt
      omega
    | none =>
      have hlast : ∀ r : Int, ¬r < n → r < (n + 1 : ℕ) →
        twoThirdsMajority (hvs.prevotes r) = none := by
        intro r hge hr
        obtain rfl : r = n := by omega
        exact hmaj
      rw [polInfoBelow, hmaj]
      dsimp only
      rcases ih with ⟨hpol, hnone⟩ | ⟨h0, hlt, hpol, hnone⟩
      · refine .inl ⟨hpol, fun r h0 hr => ?_⟩
        by_cases hrn : r < n
        · exact hnone r h0 hrn
        · exact hlast r hrn hr
      · refine .inr ⟨h0, by omega, hpol, fun r hlo hr => ?_⟩
        by_cases hrn : r < n
        · exact hnone r hlo hrn
        · exact hlast r hrn hr

/-- The rounds up to the current one are tracked, and at most two more for each peer; votes for them
reach their sets, and `POLInfo` finds the last round with a majority of prevotes. -/
theorem tracks_rounds (crypto : Crypto)
    (chainID : Bytes) (height : Int) (valSet : BoundedValidatorSet)
    (ext : Bool) {log log' : List (P2PID × Int)} {hvs hvs' : HeightVoteSet}
    (hcalls : Calls crypto (HeightVoteSet.new chainID height valSet ext) log hvs)
    (hlater : Calls crypto hvs log' hvs') : (∀ r, 0 ≤ r → r ≤ hvs.round → hvs.Tracked r) ∧
      (∀ peerID, (log.filter (·.1 = peerID)).length ≤ 2) ∧ (log.map (·.2)).Nodup ∧
      (∀ (vote : Vote) (peerID : P2PID), hvs.Tracked vote.round.toInt →
        vote.type.isVoteTypeValid = true →
        hvs.addVote crypto vote peerID hvs.extensionsEnabled = hvs.addToSet crypto vote ∧
          (hvs.addToSet crypto vote).2 ≠ .ok (false, some .unwantedRound) ∧
          (hvs.addToSet crypto vote).2 ≠ .error .nilVoteSet) ∧
      (∀ r t vs, hvs.getVoteSet r t = some vs →
        ∃ vs', hvs'.getVoteSet r t = some vs' ∧ vs.Extends vs') ∧ (hvs.polInfo = (-1, .zero) ∧
          (∀ r, 0 ≤ r → r ≤ hvs.round → twoThirdsMajority (hvs.prevotes r) = none) ∨
        0 ≤ hvs.polInfo.1 ∧ hvs.polInfo.1 ≤ hvs.round ∧
          twoThirdsMajority (hvs.prevotes hvs.polInfo.1) = some hvs.polInfo.2 ∧
          ∀ r, hvs.polInfo.1 < r → r ≤ hvs.round → twoThirdsMajority (hvs.prevotes r) = none) := by
  obtain ⟨hinv, -⟩ := (RoundInv.start crypto chainID height valSet ext).calls hcalls
  rw [nil_append] at hinv
  obtain ⟨-, hext⟩ := hinv.calls hlater
  have hround := hinv.round
  refine ⟨hinv.tracked, ?_, hinv.nodup, fun vote peerID ht htype =>
    addVote_of_tracked ht htype peerID,
    hext.sets, ?_⟩
  · intro peerID
    have htwo := hinv.two peerID
    rwa [hinv.catchup peerID, length_map] at htwo
  · rcases hvs.polInfoBelow_spec (hvs.round + 1).toNat with ⟨hpol, hnone⟩ | ⟨h0, hlt, hmaj, hnone⟩
    · exact .inl ⟨hpol, fun r h0 hr => hnone r h0 (by omega)⟩
    · refine .inr ⟨h0, ?_, hmaj, fun r hlo hr => hnone r hlo (by omega)⟩
      have hlt' : hvs.polInfo.1 < ((hvs.round + 1).toNat : ℤ) := hlt
      omega

/-! Height 1 with one validator, at round 1, and its prevote for round -1. -/

def atRound0 : HeightVoteSet := HeightVoteSet.new [1] 1 soleValidators false

def atRound1 : HeightVoteSet := (atRound0.setRound 1).toOption.getD atRound0

def prevoted : HeightVoteSet :=
  (atRound1.addVote observer.crypto (soleVote .prevote (-1) unseenBlock) [1] false).1

theorem setRound_atRound0 : atRound0.setRound 1 = .ok atRound1 :=
  eq_ok_of_isSome (by decide +kernel)

theorem calls_prevoted : ∃ log, Calls observer.crypto atRound0 log prevoted :=
  ⟨_, .next (.next .none (.setRound (by decide) setRound_atRound0)) (.addVote _ _ _)⟩

/-- Round -1 is tracked and has a majority of prevotes for a block, and `POLInfo` does not return
it. -/
theorem polInfo_misses_negative_round :
    (∃ log, Calls observer.crypto atRound0 log prevoted) ∧ prevoted.Tracked (-1) ∧
      -1 ≤ prevoted.round ∧ twoThirdsMajority (prevoted.prevotes (-1)) = some unseenBlock ∧
      prevoted.polInfo = (-1, .zero) :=
  ⟨calls_prevoted, by decide +kernel, by decide +kernel, by decide +kernel, by decide +kernel⟩

theorem tracks_rounds_prevoted : prevoted.Tracked 0 ∧ prevoted.Tracked 1 := by
  obtain ⟨log, hcalls⟩ := calls_prevoted
  obtain ⟨htracked, -⟩ := tracks_rounds observer.crypto [1] 1 soleValidators false hcalls .none
  exact ⟨htracked 0 (by decide) (by decide +kernel), htracked 1 (by decide) (by decide +kernel)⟩

end CelestiaCore.Consensus.HeightVoteSet
