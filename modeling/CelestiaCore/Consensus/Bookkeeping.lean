import CelestiaCore.Consensus.Reachable

/-!
# What a node's bookkeeping keeps

A node stays in range, its blocks and vote sets agree, and what it queues is well formed.
-/
namespace CelestiaCore.Consensus
open Wire State List Option

variable {β : Type} {env : Env β} {P : Policy} {Q : Vote → Prop} {s t : State β}

structure Positioned (s : State β) : Prop where
  round_nonneg : 0 ≤ s.rs.round
  round_le : s.rs.round ≤ maxInt32
  height : s.rs.height = s.sm.nextHeight
  commit : s.rs.step = .commit → 0 ≤ s.rs.commitRound

theorem zero_le_maxInt32 : (0 : Int) ≤ maxInt32 := by decide

variable {r : Int}

theorem ahead_le_max {step : RoundStepType} (h : Positioned s)
    (hahead : r ≤ s.rs.round ∨ P.Ahead step r) : r ≤ maxInt32 := by
  obtain hle | hahead := hahead
  · exact hle.trans h.round_le
  · exact hahead.2

theorem Positioned.height_pos (h : Positioned s) : 0 < s.rs.height := by
  rw [h.height]
  exact s.sm.nextHeight_pos

theorem Positioned.lt_nextHeight {sm : SMState} (h : Positioned s) (hstep : s.rs.step = .commit)
    (hheight : -1 < s.rs.commitRound → 0 < s.rs.height → s.rs.height = sm.lastBlockHeight) :
    s.rs.height < sm.nextHeight := by
  have hround := h.commit hstep
  have hpos := h.height_pos
  have hlast := hheight (by omega) hpos
  unfold SMState.nextHeight
  split_ifs <;> omega

theorem Positioned.kept : Kept env P Positioned where
  step := by
    intro s t h htr
    have hpos := h.round_nonneg
    cases htr with
    | newRound r vals votes hround hmax =>
      exact ⟨hpos.trans hround, hmax, h.height, by simp [mapRS]⟩
    | propose r hround hstep hahead =>
      exact ⟨hpos.trans hround, ahead_le_max h hahead, h.height, by simp [mapRS]⟩
    | prevote r id votes hround hstep hahead =>
      exact ⟨hpos.trans hround, ahead_le_max h hahead, h.height, by simp [mapRS]⟩
    | precommit r rs' id votes hround hstep hahead hid =>
      cases hid <;>
        exact ⟨hpos.trans hround, ahead_le_max h hahead, h.height, by simp [mapRS]⟩
    | prevoteWait => exact ⟨hpos, h.round_le, h.height, by simp [mapRS]⟩
    | precommitWait => exact ⟨hpos, h.round_le, h.height, by simp [mapRS]⟩
    | commit r time id hround => exact ⟨hpos, h.round_le, h.height, fun _ => hround⟩
    | newHeight =>
      exact ⟨le_rfl, zero_le_maxInt32, rfl, by simp [RoundState.atHeight]⟩
    | _ => exact ⟨h.round_nonneg, h.round_le, h.height, h.commit⟩
  stop := by
    intro s t h hstop
    cases hstop with
    | newRound r vals reset hround hmax =>
      exact ⟨h.round_nonneg.trans hround, hmax, h.height, by simp [mapRS]⟩

/-- A node moves to a later height, round or step. Only from the commit step may it go back, to the
wait for precommits. -/
def Advances (rs rs' : RoundState β) : Prop :=
  rs.height < rs'.height ∨ rs'.height = rs.height ∧
    (rs.round < rs'.round ∨ rs'.round = rs.round ∧ (rs.step ≤ rs'.step ∨ .precommit ≤ rs'.step))

theorem Advances.refl (rs : RoundState β) : Advances rs rs :=
  .inr ⟨rfl, .inr ⟨rfl, .inl le_rfl⟩⟩

theorem Advances.of_guard {rs rs' : RoundState β} (hheight : rs'.height = rs.height)
    (hround : rs.round ≤ rs'.round) (hstep : rs.round = rs'.round → rs.step ≤ rs'.step) :
    Advances rs rs' := by
  right
  refine ⟨hheight, ?_⟩
  obtain hlt | heq := hround.lt_or_eq
  · exact .inl hlt
  · exact .inr ⟨heq.symm, .inl (hstep heq)⟩

theorem Transition.advances (h : Transition env P s t) (hpos : Positioned s) :
    Advances s.rs t.rs := by
  cases h with
  | newRound r vals votes hround hmax hstep =>
    refine .of_guard rfl hround fun hr => ?_
    rw [hstep hr]
    exact RoundStepType.newHeight_le _
  | propose r hround hstep =>
    exact .of_guard rfl hround fun hr => (hstep hr).le
  | prevote r id votes hround hstep =>
    exact .of_guard rfl hround fun hr => (hstep hr).le
  | prevoteWait hstep => exact .of_guard rfl le_rfl fun _ => hstep.le
  | precommit r rs' id votes hround hstep hahead hid =>
    cases hid <;> exact .of_guard rfl hround fun hr => (hstep hr).le
  | precommitWait =>
    exact .inr ⟨rfl, .inr ⟨rfl, .inr (by decide : RoundStepType.precommit ≤ .precommitWait)⟩⟩
  | commit r time id hround hmaj hstep =>
    exact .of_guard rfl le_rfl fun _ => hstep.le
  | newHeight sm lastCommit startTime hstep hheight =>
    exact .inl (hpos.lt_nextHeight hstep hheight)
  | _ => exact .refl _

theorem Interrupted.advances (h : Interrupted P s t) : Advances s.rs t.rs := by
  cases h with
  | newRound r vals reset hround hmax hstep =>
    refine .of_guard rfl hround fun hr => ?_
    rw [hstep hr]
    exact RoundStepType.newHeight_le _

section Blocks

/-- The block, if there is one, was decoded from the complete part set beside it. -/
def Decoded (env : Env β) (block : Option β) (parts : Option PartSet) : Prop :=
  ∀ b, block = some b → ∃ ps bz, parts = some ps ∧ ps.isComplete = true ∧
    ps.getBytes = some bz ∧ env.blockFromBytes bz = .ok b

theorem Decoded.none (parts : Option PartSet) : Decoded env none parts := by
  intro b hb
  cases hb

theorem Decoded.ite {block : Option β} {parts : Option PartSet} (c : Prop) [Decidable c]
    (h : Decoded env block parts) :
    Decoded env (if c then block else .none) (if c then parts else .none) := by
  split_ifs
  · exact h
  · exact .none _

theorem Decoded.addPart {block : Option β} {parts : PartSet} (part : Option Part)
    (h : Decoded env block (some parts)) :
    Decoded env block (some (parts.addPart env.digest part).1) := by
  intro b hb
  obtain ⟨ps, bz, hps, hcomplete, hbytes, hblock⟩ := h b hb
  cases hps
  rw [(PartSet.addPart_of_isComplete env.digest hcomplete part).1]
  exact ⟨parts, bz, rfl, hcomplete, hbytes, hblock⟩

/-- Every block of a node was decoded from the part set it is kept, finalized or saved with. -/
structure BlockIdentity (env : Env β) (s : State β) : Prop where
  proposal : Decoded env s.rs.proposalBlock s.rs.proposalBlockParts
  locked : Decoded env s.rs.lockedBlock s.rs.lockedBlockParts
  valid : Decoded env s.rs.validBlock s.rs.validBlockParts
  finalized : ∀ f ∈ s.finalized, Decoded env (some f.block) (some f.parts)
  saved : ∀ p ∈ s.saved, Decoded env (some p.1) (some p.2)

theorem BlockIdentity.precommit {rs' : RoundState β} {id : Option BlockID}
    (h : BlockIdentity env s) (hid : PrecommitChoice env s.rs r rs' id) :
    Decoded env rs'.proposalBlock rs'.proposalBlockParts ∧
      Decoded env rs'.lockedBlock rs'.lockedBlockParts ∧
      Decoded env rs'.validBlock rs'.validBlockParts := by
  cases hid with
  | stopped => exact ⟨h.proposal, h.locked, h.valid⟩
  | nil => exact ⟨h.proposal, h.locked, h.valid⟩
  | unlock => exact ⟨h.proposal, .none _, h.valid⟩
  | await => exact ⟨.none _, .none _, h.valid⟩
  | relock => exact ⟨h.proposal, h.locked, h.valid⟩
  | lock => exact ⟨h.proposal, h.proposal, h.valid⟩

theorem BlockIdentity.kept : Kept env P (BlockIdentity env) where
  step := by
    intro s t h htr
    obtain ⟨hprop, hlock, hvalid, hfin, hsaved⟩ := h
    cases htr with
    | newRound =>
      exact ⟨hprop.ite _, hlock, hvalid, hfin, hsaved⟩
    | precommit r rs' id votes hround hstep hahead hid =>
      obtain ⟨h1, h2, h3⟩ := BlockIdentity.precommit ⟨hprop, hlock, hvalid, hfin, hsaved⟩ hid
      exact ⟨h1, h2, h3, hfin, hsaved⟩
    | unlock => exact ⟨hprop, .none _, hvalid, hfin, hsaved⟩
    | dropBlock => exact ⟨.none _, hlock, hvalid, hfin, hsaved⟩
    | collectParts id hnone =>
      refine ⟨?_, hlock, hvalid, hfin, hsaved⟩
      rw [mapRS, hnone]
      exact .none _
    | promote => exact ⟨hlock, hlock, hvalid, hfin, hsaved⟩
    | setValid => exact ⟨hprop, hlock, hprop, hfin, hsaved⟩
    | setProposal =>
      refine ⟨?_, hlock, hvalid, hfin, hsaved⟩
      intro b hb
      obtain ⟨ps, bz, hps, hrest⟩ := hprop b hb
      exact ⟨ps, bz, by simp [mapRS, hps], hrest⟩
    | addPart parts part hparts =>
      rw [hparts] at hprop
      exact ⟨hprop.addPart part, hlock, hvalid, hfin, hsaved⟩
    | decode parts bz b hparts hcomplete hbytes hblock =>
      refine ⟨?_, hlock, hvalid, hfin, hsaved⟩
      intro b' hb'
      cases hb'
      exact ⟨parts, bz, hparts, hcomplete, hbytes, hblock⟩
    | finalize b parts id hstep hmaj hblock hparts =>
      refine ⟨hprop, hlock, hvalid, ?_, hsaved⟩
      intro f hf
      obtain hf | hf := mem_append.1 hf
      · exact hfin f hf
      · obtain rfl := mem_singleton.1 hf
        rw [← hblock, ← hparts]
        exact hprop
    | save b parts hblock hparts =>
      refine ⟨hprop, hlock, hvalid, hfin, ?_⟩
      intro p hp
      obtain hp | hp := mem_append.1 hp
      · exact hsaved p hp
      · obtain rfl := mem_singleton.1 hp
        rw [← hblock, ← hparts]
        exact hprop
    | newHeight =>
      exact ⟨.none _, .none _, .none _, hfin, hsaved⟩
    | _ => exact ⟨hprop, hlock, hvalid, hfin, hsaved⟩
  stop := by
    intro s t h hstop
    obtain ⟨hprop, hlock, hvalid, hfin, hsaved⟩ := h
    cases hstop with
    | newRound r vals reset =>
      cases reset with
      | true => exact ⟨.none _, hlock, hvalid, hfin, hsaved⟩
      | false => exact ⟨hprop, hlock, hvalid, hfin, hsaved⟩

end Blocks

variable {id : BlockID}

section Votes

/-- The vote sets of a node keep their accounts and hold only votes that satisfy `Q`. -/
structure Voted (env : Env β) (Q : Vote → Prop) (s : State β) : Prop where
  consistent : s.rs.votes.Consistent env.crypto Q
  height : s.rs.votes.height = s.rs.height
  lastCommit : ∀ vs, s.rs.lastCommit = some vs → vs.Accounts

theorem Voted.majority (h : Voted env Q s) (type : SignedMsgType)
    (htype : type.isVoteTypeValid = true)
    (hmaj : twoThirdsMajority (s.rs.votes.getVoteSet r type) = some id) :
    ∃ v, Q v ∧ v.blockID = id := by
  obtain ⟨vs, hvs, hmaj⟩ := bind_eq_some_iff.1 hmaj
  obtain ⟨v, hv, hid⟩ := (h.consistent.tracks htype hvs).votes.maj23 id hmaj
  exact ⟨v, hv.1, hid⟩

theorem Voted.kept (hQ : ∀ v, P.handles (.vote v) → Q v) : Kept env P (Voted env Q) where
  step := by
    intro s t h htr
    obtain ⟨hcons, hheight, hlast⟩ := h
    cases htr with
    | newRound r vals votes hround hmax hstep hleave hvotes =>
      obtain ⟨hext, -, -, hcons'⟩ := HeightVoteSet.setRound_spec env.crypto Q hvotes
      exact ⟨hcons' hcons, hext.height.trans hheight, hlast⟩
    | precommit r rs' id votes hround hstep hahead hid =>
      cases hid <;> exact ⟨hcons, hheight, hlast⟩
    | addVote v peerID ext hv =>
      obtain ⟨hext, -, -, hcons', -⟩ :=
        HeightVoteSet.addVote_spec peerID ext hcons (hQ v hv)
      exact ⟨hcons', hext.height.trans hheight, hlast⟩
    | addLastVote v vs vs' added err hvs hadd =>
      refine ⟨hcons, hheight, ?_⟩
      intro vs'' hvs''
      obtain rfl := some.inj hvs''
      exact (VoteSet.addVote_spec (hlast vs hvs) hadd).1
    | claimMajority r type peerID id =>
      obtain ⟨hext, -, -, hcons'⟩ := HeightVoteSet.setPeerMaj23_spec hcons r type peerID id
      exact ⟨hcons', hext.height.trans hheight, hlast⟩
    | newHeight sm lastCommit startTime hstep hcommit hnext =>
      refine ⟨.new _ _ _ _ _ _, rfl, ?_⟩
      intro vs hvs
      obtain hvs | hvs := hnext vs hvs
      · exact (hcons.precommits hvs).accounts
      · exact hlast vs hvs
    | _ => exact ⟨hcons, hheight, hlast⟩
  stop := by
    intro s t h hstop
    cases hstop
    exact ⟨h.consistent, h.height, h.lastCommit⟩

theorem Voted.extends (h : Voted env Q s) (hQ : ∀ v, P.handles (.vote v) → Q v)
    (htr : Transition env P s t) (hheight : t.rs.height = s.rs.height) (hpos : Positioned s) :
    s.rs.votes.Extends t.rs.votes := by
  cases htr with
  | newRound r vals votes hround hmax hstep hleave hvotes =>
    exact (HeightVoteSet.setRound_spec env.crypto Q hvotes).1
  | precommit r rs' id votes hround hstep hahead hid =>
    cases hid <;> exact .refl _
  | addVote v peerID ext hv =>
    exact (HeightVoteSet.addVote_spec peerID ext h.consistent (hQ v hv)).1
  | claimMajority r type peerID id =>
    exact (HeightVoteSet.setPeerMaj23_spec h.consistent r type peerID id).1
  | newHeight sm lastCommit startTime hstep hcommit =>
    exact absurd hheight (hpos.lt_nextHeight hstep hcommit).ne'
  | _ => exact .refl _

end Votes

section Messages

/-- The part sets a node collects and those of its locked block have complete headers. -/
structure Headed (s : State β) : Prop where
  proposal : ∀ ps, s.rs.proposalBlockParts = some ps → ps.header.Complete
  locked : ∀ ps, s.rs.lockedBlockParts = some ps → ps.header.Complete

theorem complete_of_nonempty (hwf : id.WellFormed) (hne : id.hash.length ≠ 0) :
    id.partSetHeader.Complete := by
  obtain rfl | hwf := hwf
  · simp [BlockID.zero] at hne
  · exact hwf.2

theorem Voted.complete {type : SignedMsgType} (h : Voted env Q s)
    (hQ : ∀ v, Q v → v.blockID.WellFormed) (htype : type.isVoteTypeValid = true)
    (hmaj : twoThirdsMajority (s.rs.votes.getVoteSet r type) = some id)
    (hne : id.hash.length ≠ 0) : id.partSetHeader.Complete := by
  obtain ⟨v, hv, rfl⟩ := h.majority _ htype hmaj
  exact complete_of_nonempty (hQ v hv) hne

theorem complete_fromHeader {header : PartSetHeader} (h : header.Complete) {size : Nat} :
    ∀ ps, some (PartSet.fromHeader header size) = some ps → ps.header.Complete := by
  intro ps hps
  cases hps
  rwa [PartSet.header_fromHeader]

theorem Headed.step (h : Headed s) (hvoted : Voted env Q s) (hQ : ∀ v, Q v → v.blockID.WellFormed)
    (hprop : ∀ p, P.handles (.proposal p) → p.blockID.partSetHeader.Complete)
    (htr : Transition env P s t) : Headed t := by
  obtain ⟨hp, hl⟩ := h
  cases htr with
  | newRound =>
    refine ⟨?_, hl⟩
    intro ps hps
    simp only [mapRS] at hps
    split_ifs at hps
    exact hp ps hps
  | precommit r rs' id votes hround hstep hahead hid =>
    cases hid with
    | stopped => exact ⟨hp, hl⟩
    | nil => exact ⟨hp, hl⟩
    | unlock => exact ⟨hp, by simp [mapRS]⟩
    | await hmaj hother hempty =>
      exact ⟨complete_fromHeader (hvoted.complete hQ rfl hmaj hempty), by simp [mapRS]⟩
    | relock => exact ⟨hp, hl⟩
    | lock => exact ⟨hp, hp⟩
  | unlock => exact ⟨hp, by simp [mapRS]⟩
  | collectParts id hnone hid hmaj =>
    obtain ⟨r, type, htype, hmaj⟩ := hmaj
    exact ⟨complete_fromHeader (hvoted.complete hQ htype hmaj hid), hl⟩
  | promote => exact ⟨hl, hl⟩
  | setProposal p hhandles =>
    refine ⟨?_, hl⟩
    intro ps hps
    obtain hps | ⟨-, hps⟩ := or_eq_some_iff.1 hps
    · exact hp ps hps
    · exact complete_fromHeader (hprop p hhandles) ps hps
  | addPart parts part hparts =>
    refine ⟨?_, hl⟩
    intro ps hps
    cases hps
    rw [PartSet.addPart_header]
    exact hp parts hparts
  | newHeight =>
    exact ⟨by simp [RoundState.atHeight], by simp [RoundState.atHeight]⟩
  | _ => exact ⟨hp, hl⟩

theorem Headed.stop (h : Headed s) (hstop : Interrupted P s t) : Headed t := by
  cases hstop with
  | newRound r vals reset =>
    cases reset with
    | true => exact ⟨by simp [mapRS], h.locked⟩
    | false => exact ⟨h.proposal, h.locked⟩

theorem PrevoteChoice.wellFormed (hblocks : BlockIdentity env s) (hh : Headed s)
    (h : PrevoteChoice env s.rs id) : id.WellFormed := by
  unfold PrevoteChoice at h
  cases hlocked : s.rs.lockedBlock with
  | some b =>
    obtain ⟨ps, bz, hps, -⟩ := hblocks.locked b hlocked
    simp only [hlocked, hps, headerOf] at h
    subst h
    exact .inr ⟨env.length_hash b, hh.locked ps hps⟩
  | none =>
    simp only [hlocked] at h
    obtain rfl | ⟨b, hb, rfl⟩ := h
    · exact .inl rfl
    · obtain ⟨ps, bz, hps, -⟩ := hblocks.proposal b hb
      simp only [hps, headerOf]
      exact .inr ⟨env.length_hash b, hh.proposal ps hps⟩

theorem PrecommitChoice.wellFormed {rs' : RoundState β}
    (hvoted : Voted env Q s) (hQ : ∀ v, Q v → v.blockID.WellFormed)
    (h : PrecommitChoice env s.rs r rs' (some id)) : id.WellFormed := by
  cases h with
  | nil => exact .inl rfl
  | unlock => exact .inl rfl
  | await => exact .inl rfl
  | relock hmaj =>
    obtain ⟨v, hv, rfl⟩ := hvoted.majority .prevote rfl hmaj
    exact hQ v hv
  | lock hmaj =>
    obtain ⟨v, hv, rfl⟩ := hvoted.majority .prevote rfl hmaj
    exact hQ v hv

theorem Positioned.toInt_round (h : Positioned s) :
    (Int32.ofInt s.rs.round).toInt = s.rs.round := by
  have hpos := h.round_nonneg
  have hmax := h.round_le
  simp only [maxInt32] at hmax
  exact Int32.toInt_ofInt_of_le (by omega) (by omega)

/-- The messages a node sends itself and the identifiers it signs are well formed. -/
structure Filed (s : State β) : Prop where
  queue : ∀ m ∈ s.internalMsgQueue, m.WellFormed
  calls : ∀ c ∈ s.calls, c.blockID.WellFormed

theorem Filed.castVote {id : Option BlockID} {votes : List Vote} (h : Filed s)
    (type : SignedMsgType) (r : Int) (rs : RoundState β) (hpos : Positioned s)
    (hid : ∀ i, id = some i → i.WellFormed) (hcast : Cast s.rs id votes) :
    Filed (castVote s type id r rs votes) := by
  constructor
  · intro m hm
    obtain hm | hm := mem_append.1 hm
    · exact h.queue m hm
    obtain ⟨v, hv, rfl⟩ := mem_map.1 hm
    obtain ⟨hvid, hvround⟩ := hcast v hv
    refine ⟨hid _ hvid, ?_⟩
    rw [hvround, hpos.toInt_round]
    exact hpos.round_nonneg
  · intro c hc
    obtain hc | hc := mem_append.1 hc
    · exact h.calls c hc
    cases id with
    | none => simp at hc
    | some i =>
      obtain rfl : c = _ := by simpa using hc
      exact hid i rfl

theorem Filed.step (h : Filed s) (hpos : Positioned s) (hblocks : BlockIdentity env s)
    (hvoted : Voted env Q s) (hheaded : Headed s) (hQ : ∀ v, Q v → v.blockID.WellFormed)
    (htr : Transition env P s t) : Filed t := by
  cases htr with
  | send msgs hmsgs =>
    refine ⟨?_, h.calls⟩
    intro m hm
    obtain hm | hm := mem_append.1 hm
    · exact h.queue m hm
    · exact (hmsgs m hm).1
  | take => exact ⟨fun m hm => h.queue m (mem_of_mem_eraseIdx hm), h.calls⟩
  | prevote r id votes hround hstep hahead hid hcast =>
    have hcast' := h.castVote .prevote r s.rs hpos
      (fun i hi => (hid i hi).wellFormed hblocks hheaded) hcast
    exact ⟨hcast'.queue, hcast'.calls⟩
  | precommit r rs' id votes hround hstep hahead hid hcast =>
    have hcast' := h.castVote .precommit r rs' hpos
      (fun i hi => (hi ▸ hid).wellFormed hvoted hQ) hcast
    exact ⟨hcast'.queue, hcast'.calls⟩
  | _ => exact ⟨h.queue, h.calls⟩

end Messages

structure Sound (env : Env β) (Q : Vote → Prop) (s : State β) : Prop where
  position : Positioned s
  blocks : BlockIdentity env s
  votes : Voted env Q s
  headers : Headed s
  filed : Filed s

/-- The messages a policy hands to a node are well formed, and its votes satisfy `Q`. -/
structure Policy.Delivers (P : Policy) (Q : Vote → Prop) : Prop where
  wellFormed : ∀ m, P.handles m → m.WellFormed
  votes : ∀ v, P.handles (.vote v) → Q v
  ids : ∀ v, Q v → v.blockID.WellFormed

theorem Sound.kept (hP : P.Delivers Q) : Kept env P (Sound env Q) where
  step := by
    intro s t h htr
    exact ⟨Positioned.kept.step h.position htr, BlockIdentity.kept.step h.blocks htr,
      (Voted.kept hP.votes).step h.votes htr,
      h.headers.step h.votes hP.ids (fun p hp => hP.wellFormed _ hp) htr,
      h.filed.step h.position h.blocks h.votes h.headers hP.ids htr⟩
  stop := by
    intro s t h hstop
    have hposition : Kept env P Positioned := Positioned.kept
    have hblocks : Kept env P (BlockIdentity env) := BlockIdentity.kept
    refine ⟨hposition.stop h.position hstop, hblocks.stop h.blocks hstop,
      (Voted.kept hP.votes).stop h.votes hstop, h.headers.stop hstop, ?_⟩
    cases hstop
    exact ⟨h.filed.queue, h.filed.calls⟩

theorem Sound.start (env : Env β) (Q : Vote → Prop) (st : Start) : Sound env Q (.new env st) where
  position := ⟨le_rfl, zero_le_maxInt32, rfl, by simp [new, RoundState.atHeight]⟩
  blocks := ⟨.none _, .none _, .none _, by simp [new], by simp [new]⟩
  votes := by
    refine ⟨.new _ _ _ _ _ _, rfl, ?_⟩
    intro vs hvs
    simp only [new, RoundState.atHeight] at hvs
    split_ifs at hvs
    exact st.accounts vs hvs
  headers := ⟨by simp [new, RoundState.atHeight], by simp [new, RoundState.atHeight]⟩
  filed := ⟨by simp [new], by simp [new]⟩

variable {e : Event}

theorem Sound.message_wellFormed {m : Message} (h : Sound env Q s)
    (hm : e.message s = some m) : m.WellFormed := by
  cases e with
  | peer =>
    simp only [Event.message, ite_none_right_eq_some, some.injEq] at hm
    exact hm.2 ▸ Message.wellFormed_of_isValid hm.1
  | recovered =>
    cases hm
    trivial
  | internal => exact h.filed.queue m (mem_of_getElem? hm)
  | timeout => cases hm
  | txsAvailable => cases hm
  | voteSetMaj23 height r type peerID id => cases hm

/-- The policy under which a node handles any message, and timeouts of a round ahead of its own only
where they enter the steps `ahead`. -/
def Policy.forTimeouts (ahead : RoundStepType → Prop) : Policy :=
  ⟨ahead, Message.WellFormed, True⟩

theorem Policy.delivers_forTimeouts (ahead : RoundStepType → Prop) :
    (Policy.forTimeouts ahead).Delivers fun v => v.blockID.WellFormed :=
  ⟨fun _ h => h, fun _ h => h.1, fun _ h => h⟩

theorem Sound.suits {ahead : RoundStepType → Prop} (h : Sound env Q s)
    (hti : ∀ ti, e.timeoutInfo = some ti → (Policy.forTimeouts ahead).AllowsTimeout s.rs ti) :
    (Policy.forTimeouts ahead).Suits env s e :=
  ⟨fun _ hm => ⟨h.message_wellFormed hm, h.message_wellFormed hm⟩, hti, fun _ _ _ _ => trivial⟩

variable {ti : TimeoutInfo}

theorem Event.timeoutInfo_round_le (h : e.timeoutInfo = some ti) : ti.round ≤ maxInt32 := by
  cases e with
  | timeout duration height round =>
    cases h
    exact int32_le_max round
  | _ => cases h

theorem Event.allowsTimeout_of_forall (hahead : ∀ step, P.ahead step) (hleaves : P.leaves)
    (rs : RoundState β) (hti : e.timeoutInfo = some ti) : P.AllowsTimeout rs ti := by
  intro _ _
  have hmax := Event.timeoutInfo_round_le hti
  refine ⟨fun _ => hleaves, ?_⟩
  cases ti.step <;> first | exact ⟨hahead _, hmax⟩ | trivial

theorem Event.allowsTimeout (rs : RoundState β)
    (hti : e.timeoutInfo = some ti) : (Policy.forTimeouts fun _ => True).AllowsTimeout rs ti :=
  Event.allowsTimeout_of_forall (fun _ => trivial) trivial rs hti

/-- Whatever messages and timeouts a node is handed, each of its blocks was decoded from the part
set beside it, and so were the blocks it finalized and saved. -/
theorem run_blockIdentity (env : Env β) (st : Start) (inputs : List (Oracle β × Event)) :
    BlockIdentity env (Node.run env st inputs).state := by
  have hinv := (Node.reachable_run env st inputs).invariant
    (Sound.kept (Policy.delivers_forTimeouts fun _ => True)) (.start env _ st)
    fun s e hs _ => hs.suits fun ti hti => Event.allowsTimeout s.rs hti
  exact hinv.blocks

end CelestiaCore.Consensus
