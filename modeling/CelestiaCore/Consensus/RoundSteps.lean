import CelestiaCore.Consensus.Transition

/-!
# The steps of a round

Every function that enters a step of a round takes only steps of `Transition`.
-/
namespace CelestiaCore.Consensus
open Wire Relation Program Runs EStateM List

variable {β : Type} {env : Env β} {P : Policy} {o : Oracle β} {s : State β}

/-- The run ends in `t`, returning or with a panic that `F` allows. -/
def Ends (F : Panic → Prop) (t : State β) : EStateM.Result Panic (State β) Unit → Prop
  | .ok () u => u = t
  | .error p u => u = t ∧ F p

theorem Ends.runs {p : Prog β Unit} {t : State β} {Q : Unit → State β → Prop}
    (h : Ends (Fault env P s) t (p.run s)) (hst : ReflTransGen (Transition env P) s t)
    (hQ : Q () t) : Runs (behaviour env P) p s Q := by
  unfold Runs
  cases hr : p.run s with
  | ok a u =>
    rw [hr] at h
    obtain rfl : u = t := h
    exact ⟨hst, hQ⟩
  | error e u =>
    rw [hr] at h
    obtain ⟨rfl, hF⟩ : u = t ∧ Fault env P s e := h
    exact ⟨Behaviour.stops_of_steps (B := behaviour env P) hst, s, .refl, hF⟩

variable {F : Panic → Prop}

theorem Ends.tryFinally_modify {p : Prog β Unit} {t : State β}
    (g : State β → State β) (h : Ends F t (p.run s)) :
    Ends F (g t) ((tryFinally p (modify g)).run s) := by
  cases hr : p.run s with
  | ok a u =>
    rw [hr] at h
    obtain rfl : u = t := h
    rw [run_tryFinally_of_ok _ hr]
    rfl
  | error e u =>
    rw [hr] at h
    obtain ⟨rfl, hF⟩ : u = t ∧ F e := h
    rw [run_tryFinally_of_error _ hr]
    exact ⟨rfl, hF⟩

section Signing

/-- Signing leaves the state alone and panics only on what the private validator returns. -/
theorem signAndCheckVote_run (vote : Vote) (chainID : Bytes) (ext : Bool) :
    (∃ e, (signAndCheckVote o vote chainID ext).run s = .ok (.error e) s) ∨
    (∃ v, (signAndCheckVote o vote chainID ext).run s = .ok (.ok v) s ∧
      v.blockID = vote.blockID ∧ v.round = vote.round ∧ v.type = vote.type) ∨
    (signAndCheckVote o vote chainID ext).run s = .error .signing s := by
  unfold signAndCheckVote
  cases o.signVote chainID vote with
  | error e => exact .inl ⟨e, rfl⟩
  | ok v =>
    simp only
    split_ifs
    · exact .inr (.inr rfl)
    · exact .inr (.inr rfl)
    · exact .inr (.inr rfl)
    all_goals exact .inr (.inl ⟨_, rfl, rfl, rfl, rfl⟩)

variable (env o) in
theorem signVote_run (type : SignedMsgType) (id : BlockID) (block : Option β) :
    (∃ e, (signVote env o type id block).run s = .ok (.error e) s) ∨
    (∃ v, (signVote env o type id block).run s = .ok (.ok v) s ∧
      v.blockID = id ∧ v.round = Int32.ofInt s.rs.round ∧ v.type = type) ∨
    (signVote env o type id block).run s = .error .signing s := by
  unfold signVote
  simp only [run_bind, run_get]
  by_cases hwal : o.walFlushFails = true
  · simp only [hwal, if_true]
    exact .inl ⟨_, rfl⟩
  simp only [hwal, if_false, Bool.false_eq_true]
  cases hpk : s.privValidatorPubKey with
  | none => exact .inl ⟨_, rfl⟩
  | some pk =>
    simp only
    split_ifs
    · cases hext : o.extendVote (unsignedVote env o s.rs pk type id) block s.sm with
      | error e => exact .inl ⟨e, rfl⟩
      | ok ext => exact signAndCheckVote_run _ _ _
    · exact signAndCheckVote_run _ _ _

variable (env o) in
theorem signAddVote_ends (r : Int) (type : SignedMsgType)
    (id : BlockID) (block : Option β) (hF : ∀ p, p.isAssertion = false → F p) :
    ∃ votes, Cast s.rs (some id) votes ∧ Ends F (castVote s type (some id) r s.rs votes)
        ((signAddVote env o r type id block).run s) := by
  have hnone : Cast s.rs (some id) [] := by intro v hv; cases hv
  have hstate : castVote s type (some id) r s.rs [] =
      { s with calls := s.calls ++ [⟨type, id, r, s.rs⟩] } := by
    simp [castVote]
  unfold signAddVote
  simp only [run_bind, run_modify, run_get]
  split
  · split_ifs
    · simp only [run_bind]
      obtain ⟨e, h⟩ | ⟨v, h, hid, hround, -⟩ | h :=
        signVote_run env o (s := castVote s type (some id) r s.rs []) type id block
      all_goals rw [hstate] at h
      · rw [h]
        exact ⟨[], hnone, hstate.symm⟩
      · rw [h]
        simp only
        split_ifs
        · exact ⟨[], hnone, hstate.symm, hF _ rfl⟩
        refine ⟨[v], ?_, ?_⟩
        · intro w hw
          obtain rfl : w = v := by simpa using hw
          exact ⟨by rw [hid], hround⟩
        · simp [sendInternalMessage, Ends, castVote]
      · rw [h]
        exact ⟨[], hnone, hstate.symm, hF _ rfl⟩
    · exact ⟨[], hnone, hstate.symm⟩
  · exact ⟨[], hnone, hstate.symm⟩

end Signing

/-- What the callers of an entry function rely on afterwards. -/
structure Forward (s t : State β) : Prop where
  height : t.rs.height = s.rs.height
  round : s.rs.round ≤ t.rs.round
  votes : s.rs.votes.Extends t.rs.votes
  commit : t.rs.step = .commit → t.rs = s.rs

theorem Forward.refl (s : State β) : Forward s s := ⟨rfl, le_rfl, .refl _, fun _ => rfl⟩

theorem Forward.of_rs_eq {t : State β} (h : t.rs = s.rs) : Forward s t :=
  ⟨by rw [h], by rw [h], by rw [h]; exact .refl _, fun _ => h⟩

theorem Forward.trans {t u : State β} (h : Forward s t) (h' : Forward t u) : Forward s u := by
  refine ⟨h'.height.trans h.height, h.round.trans h'.round, h.votes.trans h'.votes, ?_⟩
  intro hu
  have htu := h'.commit hu
  exact htu.trans (h.commit (htu ▸ hu))

theorem Fault.of_foreign : ∀ p : Panic, p.isAssertion = false → Fault env P s p :=
  fun _ h => .foreign h

theorem cast_none (rs : RoundState β) (id : Option BlockID) : Cast rs id [] := by
  intro v hv
  cases hv

section Prevote

variable (env o) in
theorem doPrevote_ends (r : Int) (hF : ∀ p, p.isAssertion = false → F p) :
    ∃ id votes, (∀ i, id = some i → PrevoteChoice env s.rs i) ∧ Cast s.rs id votes ∧
      Ends F (castVote s .prevote id r s.rs votes) ((doPrevote env o r).run s) := by
  -- every branch but one ends in a call of `signAddVote` for a permitted identifier
  have hsign : ∀ i block, PrevoteChoice env s.rs i →
      ∃ id votes, (∀ i, id = some i → PrevoteChoice env s.rs i) ∧ Cast s.rs id votes ∧
        Ends F (castVote s .prevote id r s.rs votes)
          ((signAddVote env o r .prevote i block).run s) := by
    intro i block hi
    obtain ⟨votes, hcast, hends⟩ := signAddVote_ends env o (s := s) r .prevote i
      block hF
    refine ⟨some i, votes, ?_, hcast, hends⟩
    intro j hj
    rwa [← Option.some.inj hj]
  unfold doPrevote
  simp only [run_bind, run_get]
  cases hlocked : s.rs.lockedBlock with
  | some b =>
    apply hsign
    simp [PrevoteChoice, hlocked]
  | none =>
    have hzero : PrevoteChoice env s.rs .zero := by simp [PrevoteChoice, hlocked]
    simp only
    cases hblock : s.rs.proposalBlock with
    | none => exact hsign _ _ hzero
    | some b =>
      simp only
      cases o.validateBlock s.sm b with
      | some e => exact hsign _ _ hzero
      | none =>
        simp only
        cases o.processProposal b s.sm.initialHeight with
        | error e =>
          exact ⟨none, [], by simp, cast_none _ _, by simp [castVote], hF _ rfl⟩
        | ok accepted =>
          cases accepted with
          | false => exact hsign _ _ hzero
          | true =>
            apply hsign
            simp [PrevoteChoice, hlocked, hblock]

theorem enterPrevote_runs (h r : Int)
    (hahead : s.rs.height = h → r ≤ s.rs.round ∨ P.Ahead .prevote r) :
    Runs (behaviour env P) (enterPrevote env o h r) s fun _ t => Forward s t := by
  unfold enterPrevote
  apply get_bind
  refine earlyReturn (.refl s) fun hguard => ?_
  simp only [not_or, not_and, not_not, not_lt] at hguard
  obtain ⟨hheight, hround, hstep⟩ := hguard
  obtain ⟨id, votes, hid, hcast, hends⟩ :=
    doPrevote_ends env o (s := s) r (F := Fault env P s) Fault.of_foreign
  apply (hends.tryFinally_modify _).runs
  · apply ReflTransGen.single
    apply Transition.prevote r id votes hround _ (hahead hheight) hid hcast
    intro hr
    have := hstep hr
    exact not_le.1 this
  · exact ⟨rfl, hround, .refl _, nofun⟩

end Prevote

section Propose

/-- The run ends with messages other than votes added to the queue. -/
def Sends (s : State β) (r : EStateM.Result Panic (State β) Unit) : Prop :=
  ∃ msgs, (∀ m ∈ msgs, m.WellFormed ∧ ∀ v, m ≠ .vote v) ∧
    Ends (fun p => p.isAssertion = false)
      { s with internalMsgQueue := s.internalMsgQueue ++ msgs } r

theorem sends_pure : Sends s ((pure () : Prog β Unit).run s) :=
  ⟨[], by simp, by simp [Ends]⟩

theorem sends_throw {p : Panic} (hp : p.isAssertion = false) :
    Sends s ((throw p : Prog β Unit).run s) :=
  ⟨[], by simp, by simp, hp⟩

theorem proposeBlock_sends (h r : Int) (block : β) {parts : PartSet}
    (hparts : parts.header.Complete) : Sends s ((proposeBlock env o h r block parts).run s) := by
  unfold proposeBlock
  simp only [run_bind, run_get]
  split
  · split
    · exact sends_throw rfl
    · split_ifs
      · exact sends_pure
      · exact sends_pure
      · simp only [sendInternalMessage, run_bind, run_modify]
        constructor
        constructor
        swap
        · exact congrArg (fun q => { s with internalMsgQueue := q }) (append_assoc ..)
        · intro m hm
          simp only [cons_append, nil_append, mem_cons, mem_map] at hm
          obtain rfl | ⟨i, -, rfl⟩ := hm
          · exact ⟨hparts, by simp⟩
          · exact ⟨trivial, by simp⟩
  · exact sends_pure

theorem decideProposal_sends (h r : Int) : Sends s ((decideProposal env o h r).run s) := by
  unfold decideProposal
  simp only [run_bind, run_get]
  cases s.rs.validBlock with
  | some block =>
    simp only
    cases o.makePartSet block with
    | error e => exact sends_pure
    | ok parts => exact proposeBlock_sends h r block parts.2
  | none =>
    simp only
    cases createProposalBlock env o s with
    | error e => exact sends_pure
    | ok made =>
      cases made with
      | none => exact sends_throw rfl
      | some made => exact proposeBlock_sends h r made.1 made.2.2

theorem getProposer_run (vals : ValidatorSet) :
    (∃ v, (getProposer vals : Prog β Validator).run s = .ok v s) ∨
      ∃ p : Panic, p.isAssertion = false ∧
        (getProposer vals : Prog β Validator).run s = .error p s := by
  unfold getProposer
  split
  · exact .inr ⟨_, rfl, rfl⟩
  · exact .inr ⟨_, rfl, rfl⟩
  · exact .inl ⟨_, rfl⟩

variable (env o) in
theorem proposeIfProposer_sends (h r : Int) :
    Sends { s with timeouts := s.timeouts ++ [⟨s.proposeTimeout env r, h, r, .propose⟩] }
      ((proposeIfProposer env o h r).run s) := by
  unfold proposeIfProposer
  simp only [scheduleTimeout, run_bind, run_get, run_modify]
  split
  · split_ifs
    · simp only [run_bind]
      obtain ⟨v, hv⟩ | ⟨p, hp, hv⟩ := getProposer_run
        (s := { s with timeouts := s.timeouts ++ [⟨s.proposeTimeout env r, h, r, .propose⟩] })
        s.rs.validators
      · rw [hv]
        simp only
        split_ifs
        · exact decideProposal_sends h r
        · exact sends_pure
      · rw [hv]
        exact sends_throw hp
    · exact sends_pure
  · exact sends_pure

theorem enterPropose_runs (h r : Int)
    (hahead : s.rs.height = h → r ≤ s.rs.round ∨ P.Ahead .propose r) :
    Runs (behaviour env P) (enterPropose env o h r) s fun _ t => Forward s t := by
  unfold enterPropose
  apply get_bind
  refine earlyReturn (.refl s) fun hguard => ?_
  simp only [not_or, not_and, not_not, not_lt] at hguard
  obtain ⟨hheight, hround, hstep⟩ := hguard
  obtain ⟨msgs, hmsgs, hends⟩ := proposeIfProposer_sends env o (s := s) h r
  let ti : TimeoutInfo := ⟨s.proposeTimeout env r, h, r, .propose⟩
  let t : State β :=
    { s with timeouts := s.timeouts ++ [ti], internalMsgQueue := s.internalMsgQueue ++ msgs }
  have hst : ReflTransGen (Transition env P) s t :=
    .tail (.single (.schedule ti hheight.symm ((hahead hheight).imp_right .inr)))
      (.send msgs hmsgs)
  have hstep' : t.rs.round = r → t.rs.step < .propose := by
    intro hr
    exact not_le.1 (hstep hr)
  apply deferred (P := fun u => u = t)
  · intro u hu
    rw [hu] at hends
    obtain rfl : u = t := hends
    exact ⟨hst, rfl⟩
  · intro e u hu
    rw [hu] at hends
    obtain ⟨rfl, he⟩ : u = t ∧ e.isAssertion = false := hends
    exact ⟨hst, rfl, .foreign he⟩
  · rintro u - rfl
    apply seq (Q := Forward s)
    · exact modify (.propose r hround hstep' (hahead hheight))
        ⟨rfl, hround, .refl _, nofun⟩
    · intro v _ hv
      apply get_bind
      refine onlyIf hv fun _ => ?_
      apply (enterPrevote_runs _ _ fun _ => .inl le_rfl).weaken
      intro _ w _ hw
      exact hv.trans hw

end Propose

section NewRound

theorem rotateProposer_run (rs : RoundState β) (r : Int) :
    (∃ vals, (rotateProposer rs r).run s = .ok vals s) ∨
      ∃ p : Panic, p.isAssertion = false ∧ (rotateProposer rs r).run s = .error p s := by
  unfold rotateProposer
  split_ifs
  · exact .inr ⟨_, rfl, rfl⟩
  · split
    · exact .inr ⟨_, rfl, rfl⟩
    · exact .inl ⟨_, rfl⟩
  · exact .inl ⟨_, rfl⟩

theorem getProposerPubKey_run (vals : ValidatorSet) :
    (∃ pk, (getProposerPubKey vals : Prog β PubKey).run s = .ok pk s) ∨
      ∃ p : Panic, p.isAssertion = false ∧
        (getProposerPubKey vals : Prog β PubKey).run s = .error p s := by
  unfold getProposerPubKey
  rw [run_bind]
  obtain ⟨v, hv⟩ | ⟨p, hp, hv⟩ := getProposer_run (s := s) vals
  · rw [hv]
    cases hpk : v.pubKey with
    | none => exact .inr ⟨.nilPointer, rfl, by simp only [hpk]; rfl⟩
    | some pk => exact .inl ⟨pk, by simp only [hpk]; rfl⟩
  · exact .inr ⟨p, hp, by rw [hv]⟩

theorem trackNextRound_run (r : Int) :
    (∃ votes, s.rs.votes.setRound (r + 1) = .ok votes ∧ (trackNextRound r).run s =
      .ok () (s.mapRS fun rs => { rs with votes := votes, triggeredTimeoutPrecommit := false })) ∨
    (∃ p, s.rs.votes.setRound (r + 1) = .error p ∧ (trackNextRound r).run s = .error (.votes p) s) ∨
    (trackNextRound r).run s = .error .overflow s := by
  unfold trackNextRound
  split_ifs
  · exact .inr (.inr rfl)
  · simp only [run_bind, run_get]
    cases s.rs.votes.setRound (r + 1) with
    | error p => exact .inr (.inl ⟨p, rfl, rfl⟩)
    | ok votes => exact .inl ⟨votes, rfl, rfl⟩

theorem resetProposal_run (r : Int) : (resetProposal r).run s = .ok () (s.mapRS fun rs =>
      { rs with
        proposal := if r = 0 then rs.proposal else none
        proposalBlock := if r = 0 then rs.proposalBlock else none
        proposalBlockParts := if r = 0 then rs.proposalBlockParts else none }) := by
  unfold resetProposal
  by_cases hr : r = 0
  · simp only [hr, ne_eq, not_true_eq_false, if_false, if_true]
    rfl
  · simp only [hr, ne_eq, not_false_eq_true, if_false, if_true]
    rfl

theorem setUpRound_runs (r : Int) (hround : s.rs.round ≤ r) (hmax : r ≤ maxInt32)
    (hstep : s.rs.round = r → s.rs.step = .newHeight)
    (hleave : 0 < r → s.rs.step = .commit → P.leaves) :
    Runs (behaviour env P) (setUpRound r) s fun _ t => Forward s t ∧ t.rs.round = r := by
  have hint : ∀ vals reset, ReflTransGen (behaviour env P).stop s _ :=
    fun vals reset => .single (.inr (.newRound r vals reset hround hmax hstep hleave))
  unfold Runs setUpRound
  simp only [run_bind, run_get]
  obtain ⟨vals, hv⟩ | ⟨p, hp, hv⟩ := rotateProposer_run (s := s) s.rs r
  · rw [hv]
    simp only [updateRoundStep, run_modify]
    obtain ⟨pk, hpk⟩ | ⟨p, hp, hpk⟩ := getProposerPubKey_run vals
      (s := s.mapRS fun rs => { rs with round := r, step := .newRound, validators := vals })
    all_goals simp only [State.mapRS] at hpk ⊢
    all_goals rw [hpk]
    · simp only
      rw [resetProposal_run]
      have hkeep := hint vals (r ≠ 0)
      simp only [ne_eq, decide_not, Bool.not_eq_true', decide_eq_false_iff_not, ite_not] at hkeep
      obtain ⟨votes, hset, ht⟩ | ⟨p, hset, ht⟩ | ht := trackNextRound_run r
        (s := s.mapRS fun rs =>
          { rs with
            round := r
            step := .newRound
            validators := vals
            proposal := if r = 0 then rs.proposal else none
            proposalBlock := if r = 0 then rs.proposalBlock else none
            proposalBlockParts := if r = 0 then rs.proposalBlockParts else none })
      all_goals simp only [State.mapRS] at ht ⊢
      all_goals rw [ht]
      · constructor
        · exact .single (.newRound r vals votes hround hmax hstep hleave hset)
        · exact ⟨⟨rfl, hround, (HeightVoteSet.setRound_spec env.crypto (fun _ => True) hset).1,
            nofun⟩, rfl⟩
      · exact ⟨hkeep, s, .refl, .setRound r p hround hset⟩
      · exact ⟨hkeep, s, .refl, .foreign rfl⟩
    · exact ⟨hint vals false, s, .refl, .foreign hp⟩
  · rw [hv]
    exact ⟨.refl, s, .refl, .foreign hp⟩

theorem enterNewRound_runs (h r : Int) (hmax : r ≤ maxInt32)
    (hleave : 0 < r → s.rs.round < r → s.rs.step = .commit → P.leaves) :
    Runs (behaviour env P) (enterNewRound env o h r) s fun _ t =>
      Forward s t ∧ (s.rs.height = h → r ≤ t.rs.round) := by
  unfold enterNewRound
  apply get_bind
  apply Runs.ite
  · intro hguard
    apply Runs.pure
    refine ⟨.refl s, ?_⟩
    intro hheight
    obtain h | h | h := hguard
    · exact absurd hheight h
    · exact h.le
    · exact h.1.ge
  · intro hguard
    simp only [not_or, not_and, not_not, not_lt] at hguard
    obtain ⟨hheight, hround, hstep⟩ := hguard
    have hleave' : 0 < r → s.rs.step = .commit → P.leaves := by
      intro hr hcommit
      obtain hlt | heq := hround.lt_or_eq
      · exact hleave hr hlt hcommit
      · rw [hstep heq] at hcommit
        cases hcommit
    apply (setUpRound_runs r hround hmax hstep hleave').seq
    rintro t - ⟨hfwd, rfl⟩
    apply get_bind
    apply Runs.ite
    · rintro ⟨-, hr, -⟩
      refine Runs.onlyIf ⟨hfwd, fun _ => le_rfl⟩ fun _ => ?_
      refine Runs.modify (.schedule _ ?_ ?_) ⟨hfwd.trans (.of_rs_eq rfl), ?_⟩
      · exact hheight.symm.trans hfwd.height.symm
      · exact .inl le_rfl
      · intro _
        exact le_rfl
    · intro _
      apply (enterPropose_runs _ _ fun _ => .inl le_rfl).weaken
      intro _ u _ hu
      exact ⟨hfwd.trans hu, fun _ => hu.round⟩

end NewRound

theorem enterPrevoteWait_runs (h r : Int) (hround : s.rs.height = h → r ≤ s.rs.round)
    (hany : hasTwoThirdsAny (s.rs.votes.prevotes r) = true) :
    Runs (behaviour env P) (enterPrevoteWait env h r) s fun _ t => Forward s t := by
  unfold enterPrevoteWait
  apply get_bind
  refine earlyReturn (.refl s) fun hguard => ?_
  simp only [not_or, not_and, not_not, not_lt] at hguard
  obtain ⟨hheight, hle, hstep⟩ := hguard
  obtain rfl : s.rs.round = r := le_antisymm hle (hround hheight)
  apply Runs.ite
  · intro hnone
    rw [hany] at hnone
    cases hnone
  · intro _
    let ti : TimeoutInfo := ⟨s.prevoteTimeout env s.rs.round, h, s.rs.round, .prevoteWait⟩
    have hlt : s.rs.step < .prevoteWait := not_le.1 (hstep rfl)
    have hst : ReflTransGen (Transition env P) s _ :=
      .tail (.single (.schedule ti hheight.symm (.inl le_rfl))) (.prevoteWait hlt)
    exact of_ok (a := ()) (by rfl) hst ⟨rfl, le_rfl, .refl _, nofun⟩

section Precommit

/-- Steps that leave the position of the node and its votes alone. -/
structure Stays (s t : State β) : Prop where
  height : t.rs.height = s.rs.height
  round : t.rs.round = s.rs.round
  step : t.rs.step = s.rs.step
  votes : t.rs.votes = s.rs.votes

theorem Stays.trans {t u : State β} (h : Stays s t) (h' : Stays t u) : Stays s u :=
  ⟨h'.height.trans h.height, h'.round.trans h.round, h'.step.trans h.step, h'.votes.trans h.votes⟩

def Precommits (env : Env β) (P : Policy) (s : State β) (r : Int)
    (result : EStateM.Result Panic (State β) Unit) : Prop :=
  ∃ rs' id votes, PrecommitChoice env s.rs r rs' id ∧ Cast s.rs id votes ∧
    Ends (Fault env P s) (castVote { s with rs := rs' } .precommit id r rs' votes) result

theorem precommits_of_sign {rs' : RoundState β} (r : Int) (id : BlockID) (block : Option β)
    (hchoice : PrecommitChoice env s.rs r rs' (some id)) (hround : rs'.round = s.rs.round) :
    Precommits env P s r ((signAddVote env o r .precommit id block).run { s with rs := rs' }) := by
  obtain ⟨votes, hcast, hends⟩ := signAddVote_ends env o
    (s := { s with rs := rs' }) r .precommit id block (F := Fault env P s) Fault.of_foreign
  refine ⟨rs', some id, votes, hchoice, ?_, hends⟩
  intro v hv
  rw [← hround]
  exact hcast v hv

theorem precommits_of_throw {p : Panic} (r : Int) (hp : Fault env P s p) :
    Precommits env P s r ((throw p : Prog β Unit).run s) :=
  ⟨s.rs, none, [], .stopped, cast_none _ _, by simp [castVote], hp⟩

theorem hashesTo_of_empty {block : Option β} {hash : Bytes} (h : hash.length = 0) :
    hashesTo env block hash = false := by
  simp [hashesTo, h]

theorem blockMatchesBlockID_of_empty {block : Option β} {parts : Option PartSet} {id : BlockID}
    (h : id.hash.length = 0) : blockMatchesBlockID env block parts id = false := by
  simp [blockMatchesBlockID, hashesTo_of_empty h]

variable (env o) in
theorem doPrecommit_precommits (r : Int) (hround : s.rs.round ≤ r)
    (hahead : r ≤ s.rs.round ∨ P.Ahead .precommit r) :
    Precommits env P s r ((doPrecommit env o r).run s) := by
  unfold doPrecommit
  simp only [run_bind, run_get]
  cases hmaj : twoThirdsMajority (s.rs.votes.prevotes r) with
  | none => exact precommits_of_sign r .zero none .nil rfl
  | some id =>
    simp only
    split_ifs with hpol hempty hlocked hrelock hlock hinvalid hheader
    · exact precommits_of_throw r (.polRound r id hround hahead hmaj hpol)
    · exact precommits_of_sign r .zero none
        (.unlock hmaj (blockMatchesBlockID_of_empty hempty)) rfl
    · exact precommits_of_sign r .zero none .nil rfl
    · exact precommits_of_sign r id _ (.relock hmaj hrelock) rfl
    · exact precommits_of_throw r (.foreign rfl)
    · exact precommits_of_sign r id _ (.lock hmaj (by simpa using hrelock) hlock) rfl
    · exact precommits_of_sign r .zero none (.unlock hmaj (by simpa using hrelock)) rfl
    · exact precommits_of_sign r .zero none (.await hmaj (by simpa using hrelock) hempty) rfl

theorem enterPrecommit_runs (h r : Int)
    (hahead : s.rs.height = h → r ≤ s.rs.round ∨ P.Ahead .precommit r) :
    Runs (behaviour env P) (enterPrecommit env o h r) s fun _ t => Forward s t := by
  unfold enterPrecommit
  apply get_bind
  refine earlyReturn (.refl s) fun hguard => ?_
  simp only [not_or, not_and, not_not, not_lt] at hguard
  obtain ⟨hheight, hround, hguard⟩ := hguard
  have hstep : s.rs.round = r → s.rs.step < .precommit := by
    intro hr
    exact not_le.1 (hguard hr)
  refine earlyReturn (.refl s) fun _ => ?_
  apply Runs.ite
  · intro _
    exact Runs.modify (.setLocal _ true _) (.of_rs_eq rfl)
  · intro _
    obtain ⟨rs', id, votes, hchoice, hcast, hends⟩ :=
      doPrecommit_precommits env o r hround (hahead hheight)
    apply (hends.tryFinally_modify _).runs
    · exact .single (.precommit r rs' id votes hround hstep (hahead hheight) hchoice hcast)
    · cases hchoice <;> exact ⟨rfl, hround, .refl _, nofun⟩

theorem enterPrecommitWait_runs (h r : Int) (hround : s.rs.height = h → r ≤ s.rs.round)
    (hany : (∃ id, twoThirdsMajority (s.rs.votes.precommits r) = some id) ∨
      hasTwoThirdsAny (s.rs.votes.precommits r) = true)
    (hleave : s.rs.round = r → s.rs.triggeredTimeoutPrecommit = false → s.rs.step = .commit →
      P.leaves) : Runs (behaviour env P) (enterPrecommitWait env h r) s fun _ t => Forward s t := by
  unfold enterPrecommitWait
  apply get_bind
  refine earlyReturn (.refl s) fun hguard => ?_
  simp only [not_or, not_and, not_not, not_lt] at hguard
  obtain ⟨hheight, hle, htriggered⟩ := hguard
  obtain rfl : s.rs.round = r := le_antisymm hle (hround hheight)
  apply Runs.ite
  · intro hnone
    obtain ⟨id, hid⟩ | hany := hany
    · exact Runs.throw (.precommitWait _ id hid hnone)
    · rw [hany] at hnone
      cases hnone
  · intro _
    let ti : TimeoutInfo := ⟨s.precommitTimeout env s.rs.round, h, s.rs.round, .precommitWait⟩
    have hst : ReflTransGen (Transition env P) s _ :=
      .tail (.single (.schedule ti hheight.symm (.inl le_rfl)))
        (.precommitWait (hleave rfl (by simpa using htriggered rfl)))
    exact of_ok (a := ()) (by rfl) hst ⟨rfl, le_rfl, .refl _, nofun⟩

end Precommit

end CelestiaCore.Consensus
