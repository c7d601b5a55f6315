import CelestiaCore.Consensus.Locking

/-!
# Waiting in the commit step

A node with a majority of precommits waits in the commit step until the block is applied.
-/
namespace CelestiaCore.Consensus
open Wire Relation Program

variable {β : Type} {env : Env β} {P : Policy} {Q : Vote → Prop} {s t : State β}

def StaysUntil (s t : State β) : Prop := s.rs.height < t.rs.height ∨ SamePlace s t

theorem Advances.height_le {rs rs' : RoundState β} (h : Advances rs rs') :
    rs.height ≤ rs'.height := by
  obtain hlt | ⟨heq, -⟩ := h
  · exact hlt.le
  · exact heq.ge

theorem Transition.staysUntil (h : Transition env P s t) (hpos : Positioned s)
    (hahead : ∀ step, ¬P.ahead step) (hleaves : ¬P.leaves) (hcommit : s.rs.step = .commit) :
    StaysUntil s t := by
  have hnonneg := hpos.round_nonneg
  have hguard : ∀ {r : Int} {step step' : RoundStepType}, s.rs.round ≤ r →
      (s.rs.round = r → s.rs.step < step) → step ≤ .commit →
      (r ≤ s.rs.round ∨ P.Ahead step' r) → StaysUntil s t := by
    intro r step step' hround hstep hle hahead'
    have hr := not_ahead (hahead step') hahead'
    have hlt := hstep (le_antisymm hround hr)
    rw [hcommit] at hlt
    exact absurd hlt hle.not_gt
  cases h with
  | newRound r vals votes hround hmax hstep hleave =>
    exfalso
    obtain hlt | heq := hround.lt_or_eq
    · exact hleaves (hleave (hnonneg.trans_lt hlt) hcommit)
    · rw [hstep heq] at hcommit
      cases hcommit
  | propose r hround hstep hahead' => exact hguard hround hstep (by decide) hahead'
  | prevote r id votes hround hstep hahead' =>
    exact hguard hround hstep (by decide) hahead'
  | prevoteWait hstep =>
    rw [hcommit] at hstep
    exact absurd hstep (by decide)
  | precommit r rs' id votes hround hstep hahead' =>
    exact hguard hround hstep (by decide) hahead'
  | precommitWait hleave => exact absurd (hleave hcommit) hleaves
  | commit r time id hround hmaj hstep =>
    rw [hcommit] at hstep
    exact absurd hstep (lt_irrefl _)
  | newHeight sm lastCommit startTime hstep hheight =>
    exact .inl (hpos.lt_nextHeight hstep hheight)
  | _ => exact .inr ⟨rfl, rfl, rfl, rfl⟩

theorem Interrupted.leaves (h : Interrupted P s t) (hpos : Positioned s)
    (hcommit : s.rs.step = .commit) : P.leaves := by
  cases h with
  | newRound r vals reset hround hmax hstep hleave =>
    obtain hlt | heq := hround.lt_or_eq
    · exact hleave (hpos.round_nonneg.trans_lt hlt) hcommit
    · rw [hstep heq] at hcommit
      cases hcommit

def waitInCommit : Policy := ⟨fun _ => False, Message.WellFormed, False⟩

theorem kept_staysUntil (hcommit : s.rs.step = .commit) : Kept env waitInCommit fun t =>
      Sound env (fun v => v.blockID.WellFormed) t ∧ StaysUntil s t where
  step := by
    rintro t u ⟨hsound, hstay⟩ htr
    have hdel : waitInCommit.Delivers fun v => v.blockID.WellFormed :=
      ⟨fun _ h => h, fun _ h => h.1, fun _ h => h⟩
    refine ⟨(Sound.kept hdel).step hsound htr, ?_⟩
    obtain hlt | hsame := hstay
    · exact .inl (hlt.trans_le (htr.advances hsound.position).height_le)
    · obtain hlt | hsame' := htr.staysUntil hsound.position (fun _ => id) id
        (hsame.step.trans hcommit)
      · exact .inl (hsame.height ▸ hlt)
      · exact .inr (hsame.trans hsame')
  stop := by
    rintro t u ⟨hsound, hstay⟩ hstop
    have hdel : waitInCommit.Delivers fun v => v.blockID.WellFormed :=
      ⟨fun _ h => h, fun _ h => h.1, fun _ h => h⟩
    refine ⟨(Sound.kept hdel).stop hsound hstop, ?_⟩
    obtain hlt | hsame := hstay
    · exact .inl (hlt.trans_le hstop.advances.height_le)
    · exact (hstop.leaves hsound.position (hsame.step.trans hcommit)).elim

/-- What does not take a node out of the commit step: no timeout is for a later round, and no vote
completes two thirds that would. -/
def WaitsOut (env : Env β) (s : State β) (e : Event) : Prop :=
  s.rs.step = .commit →
    (∀ ti, e.timeoutInfo = some ti → ti.height = s.rs.height → ti.round ≤ s.rs.round) ∧
    ∀ v, e.message s = some (.vote v) → v.height.toInt = s.rs.height →
      ¬Escapes (s.withVote env v e.sender) v.type v.round.toInt

theorem WaitsOut.suits {e : Event} (h : WaitsOut env s e) (hs : Sound env Q s)
    (hcommit : s.rs.step = .commit) : waitInCommit.Suits env s e where
  handles _ hm := ⟨hs.message_wellFormed hm, hs.message_wellFormed hm⟩
  timeout ti hti hheight hround := absurd ((h hcommit).1 ti hti hheight) hround.not_ge
  escapes v hv hheight hescape := (h hcommit).2 v hv hheight hescape

/-- One event that `ok` admits leads from one node to the next. -/
def Node.Next (env : Env β) (ok : State β → Event → Prop) (n m : Node β) : Prop :=
  ∃ o e, ok n.state e ∧ m = n.step env (o, e)

theorem Node.staysUntil_step {n : Node β} {o : Oracle β} {e : Event}
    (hs : Sound env (fun v => v.blockID.WellFormed) n.state) (hcommit : n.state.rs.step = .commit)
    (he : WaitsOut env n.state e) : StaysUntil n.state (n.step env (o, e)).state := by
  have hkept : Kept env waitInCommit _ := kept_staysUntil hcommit
  have hinv := hkept.node_step ⟨hs, .inr (.refl _)⟩ o
    (he.suits hs hcommit)
  exact hinv.2

theorem Sound.kept_rising (h : Int) : Kept env (.forTimeouts fun _ => True) fun t =>
      Sound env (fun v => v.blockID.WellFormed) t ∧ h ≤ t.rs.height where
  step := fun ⟨hs, hle⟩ htr => ⟨(Sound.kept (Policy.delivers_forTimeouts _)).step hs htr,
    hle.trans (htr.advances hs.position).height_le⟩
  stop := fun ⟨hs, hle⟩ hstop => ⟨(Sound.kept (Policy.delivers_forTimeouts _)).stop hs hstop,
    hle.trans hstop.advances.height_le⟩

theorem Sound.node_step {n : Node β} (hs : Sound env (fun v => v.blockID.WellFormed) n.state)
    (o : Oracle β) (e : Event) :
    Sound env (fun v => v.blockID.WellFormed) (n.step env (o, e)).state ∧
      n.state.rs.height ≤ (n.step env (o, e)).state.rs.height :=
  (Sound.kept_rising n.state.rs.height).node_step ⟨hs, le_rfl⟩ o
    (hs.suits fun _ hti => Event.allowsTimeout _ hti)

theorem markValidBlock_run (env : Env β) (majority : Option BlockID) :
    ∃ t, (markValidBlock env majority).run s = .ok () t ∧ SamePlace s t ∧
      t.rs.proposalBlock = s.rs.proposalBlock ∧
      t.rs.proposalBlockParts = s.rs.proposalBlockParts := by
  have hruns : Runs (behaviour env waitInCommit) (markValidBlock env majority) s _ :=
    markValidBlock_runs majority
  have hok : ∃ t, (markValidBlock env majority).run s = .ok () t := by
    unfold markValidBlock
    simp only [EStateM.run_bind, EStateM.run_get]
    split
    · exact ⟨_, rfl⟩
    · exact ⟨_, rfl⟩
  obtain ⟨t, ht⟩ := hok
  rw [Runs, ht] at hruns
  exact ⟨t, ht, hruns.2⟩

theorem handleCompleteProposal_run (env : Env β) (o : Oracle β) (h : Int)
    (hcommit : s.rs.step = .commit) : ∃ t, SamePlace s t ∧ t.rs.proposalBlock = s.rs.proposalBlock ∧
      t.rs.proposalBlockParts = s.rs.proposalBlockParts ∧
      (handleCompleteProposal env o h).run s = (tryFinalizeCommit env o h).run t := by
  obtain ⟨t, hrun, hplace, hblock, hparts⟩ :=
    markValidBlock_run env (s := s) (twoThirdsMajority (s.rs.votes.prevotes s.rs.round))
  have hstep : t.rs.step = .commit := hplace.step.trans hcommit
  have hlate : ¬(t.rs.step ≤ .propose ∧ t.rs.isProposalComplete = true) := by
    rw [hstep]
    exact fun h => absurd h.1 (by decide)
  refine ⟨t, hplace, hblock, hparts, ?_⟩
  unfold handleCompleteProposal
  simp only [EStateM.run_bind, EStateM.run_get, hrun, if_neg hlate, if_pos hstep]

/-- A part that completes the part set in the commit step leads to `tryFinalizeCommit`. -/
theorem handleMsg_blockPart_run {o : Oracle β} {h : Int64} {r : Int32} {part : Option Part}
    {peerID : P2PID} (hcommit : s.rs.step = .commit)
    (hadd : (addProposalBlockPart env h part).run s = .ok true t)
    (hcomplete : t.rs.proposalBlockParts.any (·.isComplete) = true) :
    ∃ u, SamePlace s u ∧ u.rs.proposalBlock = t.rs.proposalBlock ∧
      u.rs.proposalBlockParts = t.rs.proposalBlockParts ∧
      (handleMsg env o (.blockPart h r part) peerID).run s =
        (tryFinalizeCommit env o h.toInt).run u := by
  have hadded : Runs (behaviour env waitInCommit) (addProposalBlockPart env h part) s _ :=
    addProposalBlockPart_runs h part
  rw [Runs, hadd] at hadded
  have hplace : SamePlace s t := hadded.2.2
  obtain ⟨u, hplace', hblock, hparts, hrun⟩ :=
    handleCompleteProposal_run env o h.toInt (hplace.step.trans hcommit)
  refine ⟨u, hplace.trans hplace', hblock, hparts, ?_⟩
  unfold handleMsg
  simp only [EStateM.run_bind, EStateM.run_get, hadd, hcomplete, and_self, if_true, hrun]

/-- A node stays in the commit step until its height is decided, if nothing it is handed takes it
away; the last part leads to `tryFinalizeCommit`. -/
theorem commit_step_absorbing {st : Start} {n m : Node β}
    (hn : Node.Reachable env st (fun _ _ => True) n) (hcommit : n.state.rs.step = .commit)
    (hnm : ReflTransGen (Node.Next env (WaitsOut env)) n m) : StaysUntil n.state m.state ∧
      ∀ (o : Oracle β) (h : Int64) (r : Int32) (part : Option Part) (peerID : P2PID) (t : State β),
        m.state.rs.step = .commit → (addProposalBlockPart env h part).run m.state = .ok true t →
        t.rs.proposalBlockParts.any (·.isComplete) = true →
        ∃ u, SamePlace m.state u ∧ u.rs.proposalBlock = t.rs.proposalBlock ∧
          u.rs.proposalBlockParts = t.rs.proposalBlockParts ∧
          (handleMsg env o (.blockPart h r part) peerID).run m.state =
            (tryFinalizeCommit env o h.toInt).run u := by
  refine ⟨?_, fun o h r part peerID t => handleMsg_blockPart_run⟩
  have hsound : Sound env (fun v => v.blockID.WellFormed) n.state :=
    hn.invariant (Sound.kept (Policy.delivers_forTimeouts fun _ => True)) (.start env _ st)
      fun _ _ hs _ => hs.suits fun _ hti => Event.allowsTimeout _ hti
  -- the bookkeeping stays sound along the run, whatever step the node is in
  have hrun : Sound env (fun v => v.blockID.WellFormed) m.state ∧ StaysUntil n.state m.state := by
    induction hnm with
    | refl => exact ⟨hsound, .inr (.refl _)⟩
    | tail _ hstep ih =>
      obtain ⟨o, e, hok, rfl⟩ := hstep
      obtain ⟨hs, hstay⟩ := ih
      obtain ⟨hs', hle⟩ := hs.node_step o e
      refine ⟨hs', ?_⟩
      obtain hlt | hplace := hstay
      · exact .inl (hlt.trans_le hle)
      · obtain hlt | hplace' := Node.staysUntil_step (o := o) hs (hplace.step.trans hcommit) hok
        · exact .inl (hplace.height ▸ hlt)
        · exact .inr (hplace.trans hplace')
  exact hrun.2

section SmallChain

def unseenBlock : BlockID := ⟨List.replicate hashSize 2, 1, List.replicate hashSize 3⟩

/-- The precommit that puts the observer in the commit step of round 0, and then a prevote for no
block in round 1. -/
def prevoteAfterCommit : List (Oracle Unit × Event) :=
  [(quiet, .peer (.vote (soleVote .precommit 0 unseenBlock)) [1]),
    (quiet, .peer (.vote (soleVote .prevote 1 .zero)) [1])]

def place (s : State β) : Int × Int × RoundStepType × Int :=
  (s.rs.height, s.rs.round, s.rs.step, s.rs.commitRound)

/-- The prevote of round 1 takes the observer out of the commit step of round 0 although height 1
is not decided. -/
theorem prevote_leaves_commit :
    place (Node.run observer genesis (prevoteAfterCommit.take 1)).state = (1, 0, .commit, 0) ∧
      place (Node.run observer genesis prevoteAfterCommit).state = (1, 1, .propose, 0) ∧
      ¬StaysUntil (Node.run observer genesis (prevoteAfterCommit.take 1)).state
        (Node.run observer genesis prevoteAfterCommit).state := by
  have hbefore : place (Node.run observer genesis (prevoteAfterCommit.take 1)).state =
      (1, 0, .commit, 0) := by decide +kernel
  have hafter : place (Node.run observer genesis prevoteAfterCommit).state =
      (1, 1, .propose, 0) := by decide +kernel
  refine ⟨hbefore, hafter, ?_⟩
  simp only [place, Prod.mk.injEq] at hbefore hafter
  rintro (hlt | hplace)
  · omega
  · have := hplace.round
    omega

/-- A late proposal timeout does not take the observer out of the commit step. -/
theorem late_timeout_keeps_commit :
    StaysUntil (Node.run observer genesis (prevoteAfterCommit.take 1)).state
      ((Node.run observer genesis (prevoteAfterCommit.take 1)).step observer
        (quiet, .timeout 0 1 0 .propose)).state := by
  have hplace : place (Node.run observer genesis (prevoteAfterCommit.take 1)).state =
      (1, 0, .commit, 0) := by decide +kernel
  simp only [place, Prod.mk.injEq] at hplace
  have hwaits : WaitsOut observer (Node.run observer genesis (prevoteAfterCommit.take 1)).state
      (.timeout 0 1 0 .propose) := by
    refine fun _ => ⟨?_, nofun⟩
    rintro ti hti -
    cases hti
    rw [hplace.2.1]
    decide
  exact (commit_step_absorbing (Node.reachable_run _ _ _) hplace.2.2.1
    (.single ⟨quiet, _, hwaits, rfl⟩)).1

end SmallChain

end CelestiaCore.Consensus
