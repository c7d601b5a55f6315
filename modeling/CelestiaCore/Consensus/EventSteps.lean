import CelestiaCore.Consensus.CommitSteps

/-!
# The steps of an event

Handling an event takes only steps of `Transition` that its policy allows.
-/
namespace CelestiaCore.Consensus
open Wire Relation Program Runs

variable {β : Type} {env : Env β} {P : Policy} {o : Oracle β} {s : State β}

section Votes

/-- The votes of a round take a node out of the commit step: they are of a later round, or
precommits of its own round for no block, and it has not yet waited for more. -/
def Escapes (rs : RoundState β) (type : SignedMsgType) (r : Int) : Prop :=
  rs.step = .commit ∧
    (hasTwoThirdsMajority (rs.votes.getVoteSet r type) = true ∨
      hasTwoThirdsAny (rs.votes.getVoteSet r type) = true) ∧
    (rs.round < r ∨ type = .precommit ∧ rs.round = r ∧ rs.triggeredTimeoutPrecommit = false ∧
      ∀ id, twoThirdsMajority (rs.votes.getVoteSet r type) = some id → id.hash.length = 0)

theorem enterRound0_runs (h : Int) :
    Runs (behaviour env P) (enterNewRound env o h 0) s fun _ _ => True :=
  (enterNewRound_runs h 0 (by decide) fun hpos => absurd hpos (lt_irrefl _)).forget

theorem unlockOnPolka_runs {r : Int} {id : BlockID}
    (hmaj : twoThirdsMajority (s.rs.votes.prevotes r) = some id) :
    Runs (behaviour env P) (unlockOnPolka env o r id) s fun _ t => Stays s t := by
  unfold unlockOnPolka
  apply get_bind
  refine onlyIf ⟨rfl, rfl, rfl, rfl⟩ ?_
  rintro ⟨-, hlocked, hround, hother⟩
  apply seq (Q := Stays s)
  · exact modify (.unlock r id hmaj hother hlocked hround)
      ⟨rfl, rfl, rfl, rfl⟩
  · intro t _ ht
    exact pure ht

theorem updateValidBlock_runs {r : Int} {id : BlockID}
    (hmaj : twoThirdsMajority (s.rs.votes.prevotes r) = some id) :
    Runs (behaviour env P) (updateValidBlock env o r id) s fun _ t => Stays s t := by
  unfold updateValidBlock
  apply get_bind
  refine onlyIf ⟨rfl, rfl, rfl, rfl⟩ ?_
  rintro ⟨hempty, -, -⟩
  dsimp only
  by_cases hmatch : hasHeader s.rs.proposalBlockParts id.partSetHeader = true
  · simp only [hmatch, if_true, and_true]
    split_ifs
    · exact of_ok rfl (.single (.setValid r)) ⟨rfl, rfl, rfl, rfl⟩
    · exact of_ok rfl (.single .dropBlock) ⟨rfl, rfl, rfl, rfl⟩
  · simp only [hmatch, Bool.false_eq_true, and_false, if_false]
    let t : State β := s.mapRS fun rs => { rs with proposalBlock := none }
    have hst : ReflTransGen (Transition env P) s _ :=
      .tail (.single .dropBlock) (.collectParts (s := t) id rfl hempty ⟨r, .prevote, rfl, hmaj⟩)
    exact of_ok (by rfl) hst ⟨rfl, rfl, rfl, rfl⟩

theorem afterPrevote_runs {r : Int} (hmax : r ≤ maxInt32)
    (hescape : Escapes s.rs .prevote r → P.leaves) :
    Runs (behaviour env P) (afterPrevote env o s.rs.height r) s fun _ _ => True := by
  unfold afterPrevote
  apply get_bind
  apply Runs.ite
  · rintro ⟨hlt, hany⟩
    have hleave : s.rs.step = .commit → P.leaves :=
      fun hcommit => hescape ⟨hcommit, .inr hany, .inl hlt⟩
    exact (enterNewRound_runs _ _ hmax fun _ _ => hleave).forget
  · intro _
    have hwait : s.rs.round = r → hasTwoThirdsAny (s.rs.votes.prevotes r) = true →
        Runs (behaviour env P) (enterPrevoteWait env s.rs.height r) s fun _ _ => True := by
      intro hround hany
      exact (enterPrevoteWait_runs _ _ (fun _ => hround.ge) hany).forget
    apply Runs.ite
    · rintro ⟨hround, -⟩
      cases twoThirdsMajority (s.rs.votes.prevotes r) with
      | some id =>
        apply Runs.ite
        · intro _
          exact (enterPrecommit_runs _ _ fun _ => .inl hround.ge).forget
        · intro _
          exact onlyIf trivial (hwait hround)
      | none =>
        exact onlyIf trivial (hwait hround)
    · intro _
      cases s.rs.proposal with
      | some p =>
        refine onlyIf trivial fun _ => ?_
        exact (enterPrevote_runs _ _ fun _ => .inl le_rfl).forget
      | none => exact pure trivial

theorem onPolka_runs (r : Int) :
    Runs (behaviour env P) (onPolka env o r) s fun _ t => Stays s t := by
  unfold onPolka
  apply get_bind
  cases hmaj : twoThirdsMajority (s.rs.votes.prevotes r) with
  | some id =>
    apply (unlockOnPolka_runs hmaj).bind
    intro go t _ ht
    refine onlyIf ht fun _ => ?_
    apply (updateValidBlock_runs (ht.votes ▸ hmaj)).weaken
    intro _ u _ hu
    exact ht.trans hu
  | none => exact pure ⟨rfl, rfl, rfl, rfl⟩

theorem onPrevote_runs {r : Int} (hmax : r ≤ maxInt32)
    (hescape : Escapes s.rs .prevote r → P.leaves) :
    Runs (behaviour env P) (onPrevote env o s.rs.height r) s fun _ _ => True := by
  unfold onPrevote
  apply (onPolka_runs r).bind
  intro go t _ ht
  refine onlyIf trivial fun _ => ?_
  rw [← ht.height]
  have hescape' : Escapes t.rs .prevote r → P.leaves := by
    rintro ⟨hcommit, hvotes, hlt | ⟨htype, -⟩⟩
    · rw [ht.step] at hcommit
      rw [ht.votes] at hvotes
      rw [ht.round] at hlt
      exact hescape ⟨hcommit, hvotes, .inl hlt⟩
    · exact absurd htype (by decide)
  apply (afterPrevote_runs hmax hescape').seq
  intro u _ _
  exact pure trivial

theorem onPrecommit_runs {r : Int} (hround : 0 ≤ r) (hmax : r ≤ maxInt32)
    (hescape : Escapes s.rs .precommit r → P.leaves) :
    Runs (behaviour env P) (onPrecommit env o s.rs.height r) s fun _ _ => True := by
  unfold onPrecommit
  apply get_bind
  dsimp only
  cases hmaj : twoThirdsMajority (s.rs.votes.precommits r) with
  | some id =>
    have hsome := hasTwoThirdsMajority_of_eq_some hmaj
    apply (enterNewRound_runs _ _ hmax fun _ hlt hcommit =>
      hescape ⟨hcommit, .inl hsome, .inl hlt⟩).seq
    rintro t - ⟨hfwd, hr⟩
    apply (enterPrecommit_runs _ _ fun _ => .inl (hr rfl)).seq
    intro u _ hfwd'
    have hmaj' : twoThirdsMajority (u.rs.votes.precommits r) = some id :=
      (hfwd.trans hfwd').votes.majority hmaj
    apply Runs.ite
    · intro hempty
      apply (enterCommit_runs hempty hmaj' _ hround).seq
      intro v _ _
      refine onlyIf trivial fun _ => ?_
      apply get_bind
      exact enterRound0_runs _
    · intro hempty
      have hle : r ≤ u.rs.round := (hr rfl).trans hfwd'.round
      refine (enterPrecommitWait_runs _ _ (fun _ => hle) (.inl ⟨id, hmaj'⟩) ?_).forget
      intro hru htriggered hcommit
      have hrs := (hfwd.trans hfwd').commit hcommit
      rw [hrs] at hru htriggered hcommit
      refine hescape ⟨hcommit, .inl hsome, .inr ⟨rfl, hru, htriggered, ?_⟩⟩
      intro id' hid'
      obtain rfl := Option.some.inj (hmaj.symm.trans hid')
      simpa using hempty
  | none =>
    apply onlyIf trivial
    rintro ⟨-, hany⟩
    apply (enterNewRound_runs _ _ hmax fun _ hlt hcommit =>
      hescape ⟨hcommit, .inr hany, .inl hlt⟩).seq
    rintro t - ⟨hfwd, hr⟩
    refine (enterPrecommitWait_runs _ _ (fun _ => hr rfl)
      (.inr (hfwd.votes.hasTwoThirdsAny hany)) ?_).forget
    intro hrt htriggered hcommit
    have hrs := hfwd.commit hcommit
    rw [hrs] at hrt htriggered hcommit
    refine hescape ⟨hcommit, .inr hany, .inr ⟨rfl, hrt, htriggered, ?_⟩⟩
    intro id hid
    exact absurd (hmaj.symm.trans hid) (by simp)

theorem int32_le_max (x : Int32) : x.toInt ≤ maxInt32 := by
  have h := x.toInt_lt
  simp only [maxInt32]
  omega

/-- The round state of a node that has added a vote of its height. -/
def State.withVote (env : Env β) (s : State β) (v : Vote) (peerID : P2PID) : RoundState β :=
  { s.rs with
    votes := (s.rs.votes.addVote env.crypto v peerID
      (s.sm.voteExtensionsEnabled v.height.toInt)).1 }

theorem addCurrentVote_runs {v : Vote} (peerID : P2PID) (hv : P.handles (.vote v))
    (hround : 0 ≤ v.round.toInt)
    (hescape : Escapes (s.withVote env v peerID) v.type v.round.toInt → P.leaves) :
    Runs (behaviour env P) (addCurrentVote env o v peerID) s fun _ _ => True := by
  have htr : Transition env P s _ :=
    .addVote v peerID (s.sm.voteExtensionsEnabled v.height.toInt) hv
  have hfault : ∀ p, _ → Fault env P s (.votes p) :=
    fun p => .votes v peerID (s.sm.voteExtensionsEnabled v.height.toInt) p hv
  unfold addCurrentVote
  apply get_bind
  simp only [State.mapRS] at htr
  dsimp only [State.withVote] at hescape ⊢
  generalize s.rs.votes.addVote env.crypto v peerID
    (s.sm.voteExtensionsEnabled v.height.toInt) = added at htr hfault hescape ⊢
  obtain ⟨votes, result⟩ := added
  cases result with
  | error p =>
    exact of_error (by rfl) (.single (.inl htr)) .refl (hfault p rfl)
  | ok result =>
    obtain ⟨added, err⟩ := result
    apply seq (Q := fun t => t.rs = { s.rs with votes := votes })
    · exact modify htr rfl
    · intro t _ ht
      have hheight : s.rs.height = t.rs.height := by rw [ht]
      rw [← ht] at hescape
      rw [hheight]
      refine earlyReturn trivial fun _ => ?_
      refine earlyReturn trivial fun _ => ?_
      apply Runs.ite
      · intro htype
        rw [htype] at hescape
        apply (onPrevote_runs (int32_le_max v.round) hescape).bind
        intro go u _ _
        apply Runs.ite
        · intro _
          exact Runs.pure trivial
        · intro _
          exact pure trivial
      · intro _
        apply Runs.ite
        · intro htype
          rw [htype] at hescape
          apply (onPrecommit_runs hround (int32_le_max v.round) hescape).seq
          intro u _ _
          exact pure trivial
        · intro _
          exact throw (.foreign rfl)

theorem addLastPrecommit_runs (v : Vote) :
    Runs (behaviour env P) (addLastPrecommit env o v) s fun _ _ => True := by
  unfold addLastPrecommit
  apply get_bind
  refine earlyReturn trivial fun _ => ?_
  cases hlast : s.rs.lastCommit with
  | none => exact pure trivial
  | some vs =>
    dsimp only
    cases hadd : vs.addVote env.crypto v with
    | error p => exact throw (.lastCommit v vs p hlast hadd)
    | ok result =>
      obtain ⟨vs', added, err⟩ := result
      apply seq (Q := fun _ => True)
      · exact modify (.addLastVote v vs vs' added err hlast hadd) trivial
      · intro t _ _
        refine earlyReturn trivial fun _ => ?_
        refine earlyReturn trivial fun _ => ?_
        refine onlyIf trivial fun _ => ?_
        apply (enterRound0_runs _).seq
        intro u _ _
        exact pure trivial

theorem checkExtension_error {v : Vote} {p : Panic} (h : checkExtension env o s v = .error p) :
    p.isAssertion = false := by
  unfold checkExtension at h
  split at h
  · split at h
    · cases hval : s.sm.validators.1.getByIndex v.validatorIndex.toInt with
      | none => simp [hval] at h
      | some val =>
        cases hpk : val.pubKey with
        | none =>
          simp only [hval, hpk, Except.error.injEq] at h
          exact h ▸ rfl
        | some pk =>
          simp only [hval, hpk] at h
          split_ifs at h
    · cases h
  · split at h
    · cases h
    · cases h

variable {v : Vote} (peerID : P2PID) (hv : P.handles (.vote v)) (hround : 0 ≤ v.round.toInt)
  (hescape : v.height.toInt = s.rs.height →
    Escapes (s.withVote env v peerID) v.type v.round.toInt → P.leaves)
include hv hround hescape

theorem addVote_runs : Runs (behaviour env P) (addVote env o v peerID) s fun _ _ => True := by
  unfold addVote
  apply get_bind
  apply Runs.ite
  · intro _
    exact addLastPrecommit_runs v
  · intro _
    refine earlyReturn trivial fun hheight => ?_
    cases hext : checkExtension env o s v with
    | error p => exact throw (.foreign (checkExtension_error hext))
    | ok e =>
      cases e with
      | some e => exact pure trivial
      | none => exact addCurrentVote_runs peerID hv hround (hescape (by simpa using hheight))

theorem tryAddVote_runs : Runs (behaviour env P) (tryAddVote env o v peerID) s fun _ _ => True := by
  unfold tryAddVote
  apply (addVote_runs peerID hv hround hescape).bind
  intro result t _ _
  split
  · apply get_bind
    cases t.privValidatorPubKey with
    | none => exact pure trivial
    | some pk =>
      refine earlyReturn trivial fun _ => ?_
      exact modify (.setLocal _ _ _) trivial
  · exact pure trivial

end Votes

theorem handleMsg_runs {m : Message} (peerID : P2PID) (hm : P.handles m) (hwf : m.WellFormed)
    (hescape : ∀ v, m = .vote v → v.height.toInt = s.rs.height →
      Escapes (s.withVote env v peerID) v.type v.round.toInt → P.leaves) :
    Runs (behaviour env P) (handleMsg env o m peerID) s fun _ _ => True := by
  cases m with
  | proposal => exact setProposal_runs hm
  | blockPart h r part =>
    apply (addProposalBlockPart_runs h part).bind
    intro added t _ ht
    apply get_bind
    apply onlyIf trivial
    rintro ⟨hadded, -⟩
    exact handleCompleteProposal_runs _ (ht.2.height.trans (ht.1 hadded))
  | vote v => exact tryAddVote_runs peerID hm hwf.2 (hescape v rfl)
  | _ => exact pure trivial

/-- The policy allows what a timeout does, if the timeout is for a round ahead of the node's. -/
def Policy.AllowsTimeout (P : Policy) (rs : RoundState β) (ti : TimeoutInfo) : Prop :=
  ti.height = rs.height → rs.round < ti.round → (rs.step = .commit → P.leaves) ∧
    match ti.step with
    | .newRound => P.Ahead .propose ti.round
    | .propose => P.Ahead .prevote ti.round
    | .prevoteWait | .precommitWait => P.Ahead .precommit ti.round
    | _ => True

theorem int32Wrap_le_max (n : Int) : int32Wrap n ≤ maxInt32 := by
  have h := Int.bmod_lt (x := n) (m := 2 ^ 32) (by decide)
  simp only [int32Wrap, maxInt32]
  omega

theorem handleTimeout_runs {ti : TimeoutInfo} (hti : P.AllowsTimeout s.rs ti) :
    Runs (behaviour env P) (handleTimeout env o ti) s fun _ _ => True := by
  obtain ⟨duration, h, r, step⟩ := ti
  have hahead : ∀ step', (s.rs.round < r → P.Ahead step' r) →
      r ≤ s.rs.round ∨ P.Ahead step' r := by
    intro step' himp
    obtain hle | hlt := le_or_gt r s.rs.round
    · exact .inl hle
    · exact .inr (himp hlt)
  unfold handleTimeout
  apply get_bind
  refine earlyReturn trivial fun hguard => ?_
  cases step with
  | newHeight => exact enterRound0_runs _
  | newRound =>
    exact (enterPropose_runs _ _ fun hh => hahead _ fun hlt => (hti hh.symm hlt).2).forget
  | propose =>
    exact (enterPrevote_runs _ _ fun hh => hahead _ fun hlt => (hti hh.symm hlt).2).forget
  | prevoteWait =>
    exact (enterPrecommit_runs _ _ fun hh => hahead _ fun hlt => (hti hh.symm hlt).2).forget
  | precommitWait =>
    apply (enterPrecommit_runs _ _ fun hh => hahead _ fun hlt => (hti hh.symm hlt).2).seq
    intro t _ hfwd
    refine (enterNewRound_runs _ _ (int32Wrap_le_max _) fun _ _ hcommit => ?_).forget
    -- a timeout of the node's own round is not for its commit step
    rw [hfwd.commit hcommit] at hcommit
    simp only [not_or, not_and, not_lt, not_not] at hguard
    obtain ⟨hheight, hround, hstep⟩ := hguard
    apply (hti hheight _).1 hcommit
    apply lt_of_le_of_ne hround
    rintro rfl
    rw [hcommit] at hstep
    exact absurd (hstep rfl) (by decide)
  | prevote => exact throw (.foreign rfl)
  | precommit => exact throw (.foreign rfl)
  | commit => exact throw (.foreign rfl)

theorem handleTxsAvailable_runs :
    Runs (behaviour env P) (handleTxsAvailable env o) s fun _ _ => True := by
  unfold handleTxsAvailable
  apply get_bind
  refine earlyReturn trivial fun hround => ?_
  have hround : s.rs.round = 0 := by simpa using hround
  split
  · refine earlyReturn trivial fun _ => ?_
    exact modify (.schedule _ rfl (.inr (.inl rfl))) trivial
  · exact (enterPropose_runs _ _ fun _ => .inl hround.ge).forget
  · exact pure trivial

def Event.message (s : State β) : Event → Option Message
  | .peer msg _ => if msg.isValid then some msg else none
  | .recovered height round part => some (.blockPart height round (some part))
  | .internal i => s.internalMsgQueue[i]?
  | _ => none

def Event.timeoutInfo : Event → Option TimeoutInfo
  | .timeout duration height round step => some ⟨duration, height.toInt, round.toInt, step⟩
  | _ => none

/-- The peer that sent a message; a node's own messages have none. -/
def Event.sender : Event → P2PID
  | .peer _ peerID => peerID
  | _ => []

/-- A policy that allows all that an event does. -/
structure Policy.Suits (P : Policy) (env : Env β) (s : State β) (e : Event) : Prop where
  handles : ∀ m, e.message s = some m → P.handles m ∧ m.WellFormed
  timeout : ∀ ti, e.timeoutInfo = some ti → P.AllowsTimeout s.rs ti
  escapes : ∀ v, e.message s = some (.vote v) → v.height.toInt = s.rs.height →
    Escapes (s.withVote env v e.sender) v.type v.round.toInt → P.leaves

variable (o) in
theorem handle_runs {e : Event} (h : P.Suits env s e) :
    Runs (behaviour env P) (handle env o e) s fun _ _ => True := by
  cases e with
  | peer m peerID =>
    refine onlyIf trivial fun hvalid => ?_
    have hmsg : (Event.peer m peerID).message s = some m := by simp [Event.message, hvalid]
    obtain ⟨hm, hwf⟩ := h.handles m hmsg
    exact handleMsg_runs peerID hm hwf fun v hv => h.escapes v (hv ▸ hmsg)
  | recovered =>
    obtain ⟨hm, hwf⟩ := h.handles _ rfl
    exact handleMsg_runs [] hm hwf nofun
  | internal i =>
    apply get_bind
    cases hi : s.internalMsgQueue[i]? with
    | none => exact pure trivial
    | some m =>
      obtain ⟨hm, hwf⟩ := h.handles m hi
      apply seq (Q := fun t => t.rs = s.rs ∧ t.sm = s.sm)
      · exact modify (.take i) ⟨rfl, rfl⟩
      · rintro t - ⟨hrs, hsm⟩
        apply Runs.ite
        · intro _
          exact Runs.throw (.foreign rfl)
        · intro _
          apply handleMsg_runs _ hm hwf
          intro v hv hheight hescape
          rw [hrs] at hheight
          rw [State.withVote, hrs, hsm] at hescape
          exact h.escapes v (hv ▸ hi) hheight hescape
  | timeout => exact handleTimeout_runs (h.timeout _ rfl)
  | txsAvailable => exact handleTxsAvailable_runs
  | voteSetMaj23 height r t peerID id =>
    apply get_bind
    refine onlyIf trivial fun _ => ?_
    exact modify (.claimMajority r t peerID id) trivial

end CelestiaCore.Consensus
