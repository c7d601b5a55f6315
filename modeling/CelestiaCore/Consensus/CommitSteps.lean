import CelestiaCore.Consensus.RoundSteps

/-!
# The steps of proposals and commits

Collecting a proposal and committing a block take only steps of `Transition`.
-/
namespace CelestiaCore.Consensus
open Wire Relation Program Runs

variable {β : Type} {env : Env β} {P : Policy} {o : Oracle β} {s : State β} {id : BlockID}

theorem hasTwoThirdsMajority_of_eq_some {vs : Option VoteSet}
    (h : twoThirdsMajority vs = some id) : hasTwoThirdsMajority vs = true := by
  obtain ⟨vs, rfl, hmaj⟩ := Option.bind_eq_some_iff.1 h
  simp [hasTwoThirdsMajority, VoteSet.hasTwoThirdsMajority, hmaj]

section Commit

theorem nextLastCommit_run (rs : RoundState β) (sm : SMState)
    (hmaj : twoThirdsMajority (rs.votes.precommits rs.commitRound) = some id) :
    (∃ lc, (nextLastCommit rs sm).run s = .ok lc s ∧ ∀ vs, lc = some vs →
      rs.votes.precommits rs.commitRound = some vs ∨ rs.lastCommit = some vs) ∨
    (nextLastCommit rs sm).run s = .error .emptyLastCommit s := by
  have hsome := hasTwoThirdsMajority_of_eq_some hmaj
  unfold nextLastCommit
  split_ifs
  · exact .inl ⟨none, rfl, by simp⟩
  · exact .inl ⟨_, rfl, fun vs h => .inl h⟩
  · exact .inl ⟨_, rfl, fun vs h => .inr h⟩
  · exact .inr rfl

theorem updateToState_runs (sm : SMState) (hstep : s.rs.step = .commit)
    (hmaj : twoThirdsMajority (s.rs.votes.precommits s.rs.commitRound) = some id) :
    Runs (behaviour env P) (updateToState env o sm) s fun _ _ => True := by
  unfold updateToState
  apply get_bind
  apply Runs.ite
  · intro _
    exact Runs.throw (.foreign rfl)
  · intro hheight
    apply Runs.ite
    · intro _
      exact Runs.throw (.foreign rfl)
    · intro _
      apply Runs.ite
      · intro _
        exact Runs.throw (.foreign rfl)
      · intro _
        refine earlyReturn trivial fun _ => ?_
        obtain ⟨lc, hlc, hlast⟩ | herr := nextLastCommit_run (s := s) s.rs sm hmaj
        · apply (of_ok (Q := fun a t => a = lc ∧ t = s) hlc .refl ⟨rfl, rfl⟩).bind
          rintro _ _ - ⟨rfl, rfl⟩
          apply modify _ trivial
          apply Transition.newHeight sm _ _ hstep _ hlast
          intro hround hpos
          by_contra hne
          exact hheight ⟨hround, hpos, hne⟩
        · apply bind (Q := fun _ _ => False)
          · exact of_error herr .refl .refl (.foreign rfl)
          · rintro _ _ - ⟨⟩

theorem applyVerifiedBlock_runs (b : β) (parts : PartSet) (hstep : s.rs.step = .commit)
    (hmaj : twoThirdsMajority (s.rs.votes.precommits s.rs.commitRound) = some id) :
    Runs (behaviour env P) (applyVerifiedBlock env o b parts) s fun _ _ => True := by
  unfold applyVerifiedBlock
  apply get_bind
  apply Runs.ite
  · intro _
    exact Runs.throw (.foreign rfl)
  · intro _
    cases o.applyVerifiedBlock s.sm ⟨env.hash b, parts.header⟩ b with
    | error e => exact throw (.foreign rfl)
    | ok sm =>
      apply Runs.ite
      · intro _
        exact Runs.throw (.foreign rfl)
      · intro _
        apply (updateToState_runs sm hstep hmaj).seq
        intro t _ _
        apply seq (Q := fun _ => True)
        · unfold updatePrivValidatorPubKey
          split
          · exact modify (.setLocal _ _ _) trivial
          · exact pure trivial
        · intro u _ _
          exact get_bind (modify (.schedule _ rfl (.inr (.inl rfl))) trivial)

/-- What the code has checked before it finalizes a block. -/
structure Finalizes (env : Env β) (rs : RoundState β) (b : β) (ps : PartSet) (id : BlockID) :
    Prop where
  step : rs.step = .commit
  majority : twoThirdsMajority (rs.votes.precommits rs.commitRound) = some id
  block : rs.proposalBlock = some b
  parts : rs.proposalBlockParts = some ps
  hash : env.hash b = id.hash
  nonempty : id.hash.length ≠ 0
  header : ps.header = id.partSetHeader

theorem applyBlock_runs {b : β} {parts : PartSet} (h : Finalizes env s.rs b parts id) :
    Runs (behaviour env P) (applyBlock env o b parts) s fun _ _ => True := by
  unfold applyBlock
  apply seq (Q := fun t => t.rs = s.rs)
  · exact modify (.finalize b parts id h.step h.majority h.block h.parts h.hash h.nonempty
      h.header) rfl
  · intro t _ ht
    apply seq (Q := fun u => u.rs = s.rs)
    · unfold saveBlock
      refine onlyIf ht fun _ => ?_
      exact modify (.save b parts (ht ▸ h.block) (ht ▸ h.parts)) ht
    · intro u _ hu
      exact applyVerifiedBlock_runs b parts (hu ▸ h.step) (hu ▸ h.majority)

theorem hashesTo_eq_true {block : Option β} {hash : Bytes} :
    hashesTo env block hash = true ↔ hash.length ≠ 0 ∧ ∃ b, block = some b ∧ env.hash b = hash := by
  cases block <;> simp [hashesTo]

theorem hasHeader_eq_true {parts : Option PartSet} {header : PartSetHeader} :
    hasHeader parts header = true ↔ ∃ ps, parts = some ps ∧ ps.header = header := by
  cases parts <;> simp [hasHeader]

theorem finalizeCommit_runs (h : Int)
    (hmaj : twoThirdsMajority (s.rs.votes.precommits s.rs.commitRound) = some id)
    (hhash : hashesTo env s.rs.proposalBlock id.hash = true)
    (hheader : hasHeader s.rs.proposalBlockParts id.partSetHeader = true) :
    Runs (behaviour env P) (finalizeCommit env o h) s fun _ _ => True := by
  obtain ⟨hne, b, hb, hbhash⟩ := hashesTo_eq_true.1 hhash
  obtain ⟨ps, hps, hpsheader⟩ := hasHeader_eq_true.1 hheader
  unfold finalizeCommit
  apply get_bind
  refine earlyReturn trivial fun hguard => ?_
  simp only [not_or, not_not] at hguard
  rw [hb] at hhash
  rw [hps] at hheader
  simp only [hmaj, hb, hps, hhash, hheader, Bool.true_eq_false, if_false]
  cases o.validateBlock s.sm b with
  | some e => exact throw (.foreign rfl)
  | none => exact applyBlock_runs ⟨hguard.2, hmaj, hb, hps, hbhash, hne, hpsheader⟩

theorem tryFinalizeCommit_runs (h : Int) (hheight : s.rs.height = h) :
    Runs (behaviour env P) (tryFinalizeCommit env o h) s fun _ _ => True := by
  unfold tryFinalizeCommit
  apply get_bind
  apply Runs.ite
  · intro hne
    exact absurd hheight hne
  · intro _
    cases hmaj : twoThirdsMajority (s.rs.votes.precommits s.rs.commitRound) with
    | none => exact pure trivial
    | some id =>
      refine earlyReturn trivial fun _ => ?_
      refine earlyReturn trivial fun hhash => ?_
      refine earlyReturn trivial fun hparts => ?_
      simp only [not_or, Bool.not_eq_false] at hhash hparts
      exact finalizeCommit_runs h hmaj hhash hparts.1

variable (env) in
theorem promoteLockedBlock_run (id : BlockID) :
    ∃ t, (promoteLockedBlock env id).run s = .ok () t ∧ ReflTransGen (Transition env P) s t ∧
      Stays s t := by
  unfold promoteLockedBlock
  simp only [EStateM.run_bind, EStateM.run_get]
  split_ifs
  · exact ⟨_, rfl, .single .promote, rfl, rfl, rfl, rfl⟩
  · exact ⟨s, rfl, .refl, rfl, rfl, rfl, rfl⟩

variable {r : Int} (hempty : id.hash.length ≠ 0)
  (hmaj : twoThirdsMajority (s.rs.votes.precommits r) = some id)
include hempty hmaj

variable (env) in
theorem awaitCommittedBlock_run :
    ∃ t, (awaitCommittedBlock env id).run s = .ok () t ∧ ReflTransGen (Transition env P) s t ∧
      Stays s t := by
  unfold awaitCommittedBlock
  simp only [EStateM.run_bind, EStateM.run_get]
  split_ifs
  · exact ⟨s, rfl, .refl, rfl, rfl, rfl, rfl⟩
  · exact ⟨_, rfl, .single .dropBlock, rfl, rfl, rfl, rfl⟩
  · let t : State β := s.mapRS fun rs => { rs with proposalBlock := none }
    have hst : ReflTransGen (Transition env P) s _ :=
      .tail (.single .dropBlock) (.collectParts (s := t) id rfl hempty ⟨r, .precommit, rfl, hmaj⟩)
    exact ⟨_, rfl, hst, rfl, rfl, rfl, rfl⟩

variable (env) in
theorem prepareCommit_run :
    ∃ t, (prepareCommit env r).run s = .ok () t ∧ ReflTransGen (Transition env P) s t ∧
      Stays s t := by
  obtain ⟨t, ht, hst, hstays⟩ := promoteLockedBlock_run env (P := P) (s := s) id
  obtain ⟨u, hu, htu, hstays'⟩ := awaitCommittedBlock_run env (P := P) (s := t) hempty
    (by rw [hstays.votes]; exact hmaj)
  refine ⟨u, ?_, hst.trans htu, hstays.trans hstays'⟩
  unfold prepareCommit
  simp only [EStateM.run_bind, EStateM.run_get, hmaj, ht, hu]

theorem enterCommit_runs (h : Int) (hround : 0 ≤ r) :
    Runs (behaviour env P) (enterCommit env o h r) s fun _ _ => True := by
  unfold enterCommit
  apply get_bind
  refine earlyReturn trivial fun hguard => ?_
  simp only [not_or, not_not] at hguard
  obtain ⟨hheight, hstep⟩ := hguard
  have hlt : s.rs.step < .commit := not_le.1 hstep
  obtain ⟨t, ht, hst, hstays⟩ := prepareCommit_run env (P := P) hempty hmaj
  apply deferred (P := fun u => u = t)
  · intro u hu
    obtain rfl : t = u := by simpa [ht] using hu
    exact ⟨hst, rfl⟩
  · intro e u hu
    simp [ht] at hu
  · rintro u - rfl
    apply seq (Q := fun v => v.rs.height = h)
    · apply Runs.modify
      · apply Transition.commit r _ id hround
        · rw [hstays.votes]
          exact hmaj
        · rw [hstays.step]
          exact hlt
      · exact hstays.height.trans hheight
    · intro v _ hv
      exact tryFinalizeCommit_runs h hv

end Commit

section Proposal

theorem setProposal_runs {p : Proposal} (hp : P.handles (.proposal p)) :
    Runs (behaviour env P) (setProposal env p) s fun _ _ => True := by
  unfold setProposal
  apply get_bind
  refine earlyReturn trivial fun _ => ?_
  refine earlyReturn trivial fun _ => ?_
  refine earlyReturn trivial fun _ => ?_
  apply bind (Q := fun _ t => t = s)
  · obtain ⟨pk, hpk⟩ | ⟨e, he, hpk⟩ := getProposerPubKey_run (s := s) s.rs.validators
    · exact of_ok hpk .refl rfl
    · exact of_error hpk .refl .refl (.foreign he)
  · rintro pk t - rfl
    cases proposalSignBytes t.sm.chainID p with
    | none => exact throw (.foreign rfl)
    | some bytes =>
      refine earlyReturn trivial fun _ => ?_
      refine earlyReturn trivial fun _ => ?_
      exact modify (.setProposal p hp) trivial

/-- The same height, round and step, and the same round to commit. -/
structure SamePlace (s t : State β) : Prop where
  height : t.rs.height = s.rs.height
  round : t.rs.round = s.rs.round
  step : t.rs.step = s.rs.step
  commitRound : t.rs.commitRound = s.rs.commitRound

theorem SamePlace.refl (s : State β) : SamePlace s s := ⟨rfl, rfl, rfl, rfl⟩

theorem SamePlace.trans {t u : State β} (h : SamePlace s t) (h' : SamePlace t u) : SamePlace s u :=
  ⟨h'.height.trans h.height, h'.round.trans h.round, h'.step.trans h.step,
    h'.commitRound.trans h.commitRound⟩

theorem addProposalBlockPart_runs (h : Int64) (part : Option Part) :
    Runs (behaviour env P) (addProposalBlockPart env h part) s fun added t =>
      (added = true → s.rs.height = h.toInt) ∧ SamePlace s t := by
  unfold addProposalBlockPart
  apply get_bind
  refine earlyReturn ⟨nofun, .refl s⟩ fun hheight => ?_
  have hheight : s.rs.height = h.toInt := by simpa using hheight
  cases hparts : s.rs.proposalBlockParts with
  | none => exact pure ⟨nofun, .refl s⟩
  | some parts =>
    have htr : Transition env P s _ := .addPart parts part hparts
    dsimp only
    generalize parts.addPart env.digest part = added at htr ⊢
    obtain ⟨parts', result⟩ := added
    apply seq (Q := fun t => SamePlace s t ∧ t.rs.proposalBlockParts = some parts')
    · exact modify htr ⟨⟨rfl, rfl, rfl, rfl⟩, rfl⟩
    · rintro t - ⟨ht, hadded⟩
      cases result with
      | error e => exact pure ⟨nofun, ht⟩
      | ok added =>
        refine earlyReturn ⟨fun _ => hheight, ht⟩ fun _ => ?_
        refine onlyIf ⟨fun _ => hheight, ht⟩ ?_
        rintro ⟨-, hcomplete⟩
        cases hbytes : parts'.getBytes with
        | none => exact throw (.foreign rfl)
        | some bz =>
          dsimp only
          cases hblock : env.blockFromBytes bz with
          | error e => exact pure ⟨fun _ => hheight, ht⟩
          | ok b =>
            apply seq (Q := SamePlace s)
            · exact modify (.decode _ bz b hadded hcomplete hbytes hblock)
                (ht.trans ⟨rfl, rfl, rfl, rfl⟩)
            · intro u _ hu
              exact pure ⟨fun _ => hheight, hu⟩

theorem markValidBlock_runs (majority : Option BlockID) :
    Runs (behaviour env P) (markValidBlock env majority) s fun _ t => SamePlace s t ∧
      t.rs.proposalBlock = s.rs.proposalBlock ∧
      t.rs.proposalBlockParts = s.rs.proposalBlockParts := by
  unfold markValidBlock
  apply get_bind
  refine onlyIf ⟨.refl s, rfl, rfl⟩ fun _ => ?_
  exact modify (.setValid _) ⟨⟨rfl, rfl, rfl, rfl⟩, rfl, rfl⟩

theorem handleCompleteProposal_runs (h : Int) (hheight : s.rs.height = h) :
    Runs (behaviour env P) (handleCompleteProposal env o h) s fun _ _ => True := by
  unfold handleCompleteProposal
  apply get_bind
  apply (markValidBlock_runs _).seq
  intro t _ ht
  apply get_bind
  apply Runs.ite
  · intro _
    apply (enterPrevote_runs h _ fun _ => .inl le_rfl).seq
    intro u _ _
    refine onlyIf trivial fun _ => ?_
    apply get_bind
    apply (enterPrecommit_runs h _ fun _ => .inl le_rfl).weaken
    intros
    trivial
  · intro _
    refine onlyIf trivial fun _ => ?_
    exact tryFinalizeCommit_runs h (ht.1.height.trans hheight)

end Proposal

end CelestiaCore.Consensus
