import CelestiaCore.Consensus.Equivocation

/-!
# The lock of a node

The lock of a node and the votes signed under it, through every step that locks, relocks or unlocks.
-/
namespace CelestiaCore.Consensus
open Wire List

variable {β : Type} {env : Env β} {P : Policy} {Q : Vote → Prop} {s t : State β} {id : BlockID}

theorem blockMatchesBlockID_eq_true {block : Option β} {parts : Option PartSet} :
    blockMatchesBlockID env block parts id = true ↔ id.hash.length ≠ 0 ∧
      ∃ b ps, block = some b ∧ parts = some ps ∧ id = ⟨env.hash b, ps.header⟩ := by
  obtain ⟨hash, header⟩ := id
  simp only [blockMatchesBlockID, decide_eq_true_eq, hashesTo_eq_true, hasHeader_eq_true,
    BlockID.mk.injEq]
  constructor
  · rintro ⟨⟨hne, b, hb, rfl⟩, ps, hps, rfl⟩
    exact ⟨hne, b, ps, hb, hps, rfl, rfl⟩
  · rintro ⟨hne, b, ps, hb, hps, rfl, rfl⟩
    exact ⟨⟨hne, b, hb, rfl⟩, ps, hps, rfl⟩

def LockedOn (env : Env β) (rs : RoundState β) (id : BlockID) : Prop :=
  blockMatchesBlockID env rs.lockedBlock rs.lockedBlockParts id = true

/-- The lock of a node: all or nothing, in a round it has reached, and on what that round has a
majority of prevotes for. -/
structure Lock (env : Env β) (rs : RoundState β) : Prop where
  round_iff : rs.lockedRound = -1 ↔ rs.lockedBlock = none
  parts_iff : rs.lockedBlock = none ↔ rs.lockedBlockParts = none
  round_le : rs.lockedRound ≤ rs.round
  settled : rs.lockedBlock ≠ none → rs.lockedRound = rs.round → .precommit ≤ rs.step
  polka : ∀ b ps, rs.lockedBlock = some b → rs.lockedBlockParts = some ps →
    twoThirdsMajority (rs.votes.prevotes rs.lockedRound) = some ⟨env.hash b, ps.header⟩

variable {rs : RoundState β}

theorem Lock.none (hround : rs.lockedRound = -1) (hblock : rs.lockedBlock = none)
    (hparts : rs.lockedBlockParts = none) (hpos : 0 ≤ rs.round) : Lock env rs where
  round_iff := by simp [hround, hblock]
  parts_iff := by simp [hblock, hparts]
  round_le := by omega
  settled h := absurd hblock h
  polka b ps hb := by simp [hblock] at hb

theorem Lock.new (hmaj : twoThirdsMajority (rs.votes.prevotes rs.lockedRound) = some id)
    (hmatch : LockedOn env rs id) (hround : rs.lockedRound = rs.round)
    (hstep : rs.step = .precommit) (hpos : 0 ≤ rs.round) : Lock env rs := by
  obtain ⟨-, b, ps, hb, hps, rfl⟩ := blockMatchesBlockID_eq_true.1 hmatch
  refine ⟨?_, by simp [hb, hps], hround.le, fun _ _ => hstep.ge, ?_⟩
  · simp only [hb, reduceCtorEq, iff_false]
    omega
  · intro b' ps' hb' hps'
    rw [hb, Option.some.injEq] at hb'
    rw [hps, Option.some.injEq] at hps'
    rw [← hb', ← hps']
    exact hmaj

theorem Lock.frame {rs rs' : RoundState β} (h : Lock env rs)
    (hround : rs'.lockedRound = rs.lockedRound) (hblock : rs'.lockedBlock = rs.lockedBlock)
    (hparts : rs'.lockedBlockParts = rs.lockedBlockParts) (hheight : rs'.height = rs.height)
    (hadv : Advances rs rs') (hvotes : rs.votes.Extends rs'.votes) : Lock env rs' := by
  have hle := h.round_le
  have hadv' : rs.round < rs'.round ∨
      rs'.round = rs.round ∧ (rs.step ≤ rs'.step ∨ .precommit ≤ rs'.step) := by
    obtain hlt | ⟨-, hadv⟩ := hadv
    · exact absurd hheight hlt.ne'
    · exact hadv
  refine ⟨by rw [hround, hblock]; exact h.round_iff, by rw [hblock, hparts]; exact h.parts_iff,
    by omega, ?_, ?_⟩
  · rw [hblock, hround]
    intro hlocked hr
    obtain hlt | ⟨heq, hstep⟩ := hadv'
    · omega
    · exact hstep.elim (h.settled hlocked (hr.trans heq)).trans id
  · rw [hblock, hparts, hround]
    intro b ps hb hps
    exact hvotes.majority (h.polka b ps hb hps)

theorem Lock.step (h : Lock env s.rs) (hpos : Positioned s) (hvoted : Voted env Q s)
    (hQ : ∀ v, P.handles (.vote v) → Q v) (htr : Transition env P s t) : Lock env t.rs := by
  have hadv := htr.advances hpos
  have hext := hvoted.extends hQ htr
  have hnonneg := hpos.round_nonneg
  cases htr with
  | precommit r rs' id votes hround hstep hahead hid =>
    have hr : 0 ≤ r := hnonneg.trans hround
    cases hid with
    | stopped => exact h.frame rfl rfl rfl rfl hadv (hext rfl hpos)
    | nil => exact h.frame rfl rfl rfl rfl hadv (hext rfl hpos)
    | unlock => exact .none rfl rfl rfl hr
    | await => exact .none rfl rfl rfl hr
    | relock hmaj hmatch => exact .new hmaj hmatch rfl rfl hr
    | lock hmaj hother hmatch => exact .new hmaj hmatch rfl rfl hr
  | unlock => exact .none rfl rfl rfl hnonneg
  | newHeight => exact .none rfl rfl rfl le_rfl
  | _ => exact h.frame rfl rfl rfl rfl hadv (hext rfl hpos)

theorem Lock.stop (h : Lock env s.rs) (hstop : Interrupted P s t) : Lock env t.rs := by
  have hadv := hstop.advances
  cases hstop
  exact h.frame rfl rfl rfl rfl hadv (.refl _)

/-- A round after `r`, up to `r'`, has a majority of prevotes for something other than `id`. -/
def Superseded (votes : HeightVoteSet) (r r' : Int) (id : BlockID) : Prop :=
  ∃ q id', r < q ∧ q ≤ r' ∧ twoThirdsMajority (votes.prevotes q) = some id' ∧ id' ≠ id

theorem Superseded.mono {votes votes' : HeightVoteSet} {r q q' : Int} (h : Superseded votes r q id)
    (hvotes : votes.Extends votes') (hle : q ≤ q') : Superseded votes' r q' id := by
  obtain ⟨p, id', hrp, hpq, hmaj, hne⟩ := h
  exact ⟨p, id', hrp, hpq.trans hle, hvotes.majority hmaj, hne⟩

/-- The promise a precommit of `id` in round `r` makes: the lock stays until it is superseded. -/
def Holds (env : Env β) (rs : RoundState β) (r : Int) (id : BlockID) : Prop :=
  LockedOn env rs id ∧ r ≤ rs.lockedRound ∨ Superseded rs.votes r rs.round id

/-- A majority for what the node is not locked on, after the round of its lock, supersedes it. -/
theorem Holds.superseded {r q q' : Int} {id id' : BlockID}
    (h : Holds env rs r id) (hmaj : twoThirdsMajority (rs.votes.prevotes q) = some id')
    (hother : blockMatchesBlockID env rs.lockedBlock rs.lockedBlockParts id' = false)
    (hlocked : LockedOn env rs id → rs.lockedRound < q) (hq : q ≤ q') (hround : rs.round ≤ q') :
    Superseded rs.votes r q' id := by
  obtain ⟨hon, hr⟩ | hsup := h
  · refine ⟨q, id', hr.trans_lt (hlocked hon), hq, hmaj, ?_⟩
    rintro rfl
    rw [LockedOn, hother] at hon
    cases hon
  · exact hsup.mono (.refl _) hround

theorem Holds.frame {rs rs' : RoundState β} {r : Int} (h : Holds env rs r id)
    (hlocked : rs'.lockedRound = rs.lockedRound) (hblock : rs'.lockedBlock = rs.lockedBlock)
    (hparts : rs'.lockedBlockParts = rs.lockedBlockParts) (hround : rs.round ≤ rs'.round)
    (hvotes : rs.votes.Extends rs'.votes) : Holds env rs' r id := by
  obtain ⟨hon, hr⟩ | hsup := h
  · left
    rw [LockedOn, hblock, hparts, hlocked]
    exact ⟨hon, hr⟩
  · exact Or.inr (hsup.mono hvotes hround)

theorem Lock.lt_of_guard {r : Int} (h : Lock env s.rs) (hround : s.rs.round ≤ r)
    (hstep : s.rs.round = r → s.rs.step < .precommit) (hon : LockedOn env s.rs id) :
    s.rs.lockedRound < r := by
  obtain ⟨-, b, ps, hb, -⟩ := blockMatchesBlockID_eq_true.1 hon
  have hle := h.round_le
  by_contra hge
  have hr : s.rs.round = r := by omega
  have hsettled := h.settled (by simp [hb]) (by omega)
  exact absurd (hstep hr) hsettled.not_gt

theorem Holds.step {r : Int} (h : Holds env s.rs r id) (hlock : Lock env s.rs)
    (hpos : Positioned s) (hvoted : Voted env Q s) (hQ : ∀ v, P.handles (.vote v) → Q v)
    (htr : Transition env P s t) (hheight : t.rs.height = s.rs.height) : Holds env t.rs r id := by
  have hext := hvoted.extends hQ htr hheight hpos
  cases htr with
  | newRound q vals votes hround => exact h.frame rfl rfl rfl hround hext
  | propose q hround => exact h.frame rfl rfl rfl hround hext
  | prevote q id' votes hround => exact h.frame rfl rfl rfl hround hext
  | precommit q rs' id' votes hround hstep hahead hid =>
    have hlt : LockedOn env s.rs id → s.rs.lockedRound < q := hlock.lt_of_guard hround hstep
    cases hid with
    | stopped => exact h.frame rfl rfl rfl hround hext
    | nil => exact h.frame rfl rfl rfl hround hext
    | unlock hmaj hother => exact Or.inr (h.superseded hmaj hother hlt le_rfl hround)
    | await hmaj hother => exact Or.inr (h.superseded hmaj hother hlt le_rfl hround)
    | relock =>
      obtain ⟨hon, hr⟩ | hsup := h
      · exact Or.inl ⟨hon, hr.trans (hlt hon).le⟩
      · exact Or.inr (hsup.mono (.refl _) hround)
    | lock hmaj hother => exact Or.inr (h.superseded hmaj hother hlt le_rfl hround)
  | unlock q id' hmaj hother hlocked hround =>
    exact Or.inr (h.superseded hmaj hother (fun _ => hlocked) hround le_rfl)
  | newHeight sm lastCommit startTime hstep hcommit =>
    exact absurd hheight (hpos.lt_nextHeight hstep hcommit).ne'
  | _ => exact h.frame rfl rfl rfl le_rfl hext

def Justified (env : Env β) (roundOf : SignCall β → Int) (c : SignCall β) : Prop :=
  c.msgType = .precommit → c.blockID ≠ .zero →
    twoThirdsMajority (c.rs.votes.prevotes (roundOf c)) = some c.blockID ∧
      LockedOn env c.rs c.blockID

/-- A later prevote for something else than a precommit had its reason in the vote sets. -/
def Excused (roundOf : SignCall β → Int) (c c' : SignCall β) : Prop :=
  c.msgType = .precommit → c.blockID ≠ .zero → c'.msgType = .prevote →
    c'.rs.height = c.rs.height → roundOf c < roundOf c' → c'.blockID ≠ c.blockID →
    Superseded c'.rs.votes (roundOf c) (roundOf c') c.blockID

/-- The promises of the precommits signed so far. -/
structure Promises (env : Env β) (s : State β) : Prop where
  past : ∀ c ∈ s.calls, c.rs.height < s.rs.height ∨ c.rs.height = s.rs.height ∧ c.round ≤ s.rs.round
  justified : ∀ c ∈ s.calls, Justified env SignCall.round c
  excused : ∀ c ∈ s.calls, ∀ c' ∈ s.calls, Excused SignCall.round c c'
  holds : ∀ c ∈ s.calls, c.msgType = .precommit → c.blockID ≠ .zero →
    c.rs.height = s.rs.height → Holds env s.rs c.round c.blockID

theorem PrecommitChoice.justified {rs' : RoundState β} {r : Int}
    (h : PrecommitChoice env s.rs r rs' (some id)) (hne : id ≠ .zero) :
    twoThirdsMajority (rs'.votes.prevotes r) = some id ∧ LockedOn env rs' id ∧
      rs'.lockedRound = r := by
  cases h with
  | nil => exact absurd rfl hne
  | unlock => exact absurd rfl hne
  | await => exact absurd rfl hne
  | relock hmaj hmatch => exact ⟨hmaj, hmatch, rfl⟩
  | lock hmaj hother hmatch => exact ⟨hmaj, hmatch, rfl⟩

theorem PrevoteChoice.eq_of_lockedOn {id id' : BlockID} (h : PrevoteChoice env s.rs id')
    (hon : LockedOn env s.rs id) : id' = id := by
  obtain ⟨-, b, ps, hb, hps, rfl⟩ := blockMatchesBlockID_eq_true.1 hon
  unfold PrevoteChoice at h
  simpa only [hb, hps, headerOf] using h

theorem Promises.step (h : Promises env s) (hlock : Lock env s.rs) (hpos : Positioned s)
    (hvoted : Voted env Q s) (hQ : ∀ v, P.handles (.vote v) → Q v)
    (htr : Transition env P s t) : Promises env t := by
  have hadv := htr.advances hpos
  have hpast : ∀ c ∈ s.calls,
      c.rs.height < t.rs.height ∨ c.rs.height = t.rs.height ∧ c.round ≤ t.rs.round := by
    intro c hc
    have := h.past c hc
    unfold Advances at hadv
    omega
  have hholds : ∀ c ∈ s.calls, c.msgType = .precommit → c.blockID ≠ .zero →
      c.rs.height = t.rs.height → Holds env t.rs c.round c.blockID := by
    intro c hc htype hne hheight
    have hle := h.past c hc
    have heq : t.rs.height = s.rs.height := by
      unfold Advances at hadv
      omega
    exact (h.holds c hc htype hne (hheight.trans heq)).step hlock hpos hvoted hQ htr heq
  obtain hcalls | ⟨c, hcalls, hc⟩ := htr.calls
  · refine ⟨?_, ?_, ?_, ?_⟩ <;> rw [hcalls]
    · exact hpast
    · exact h.justified
    · exact h.excused
    · exact hholds
  · have hentered := hc.entered
    refine ⟨?_, ?_, ?_, ?_⟩ <;> rw [hcalls]
    · refine forall_mem_append.2 ⟨hpast, forall_mem_singleton.2 ?_⟩
      rw [hentered]
      exact Or.inr ⟨rfl, le_rfl⟩
    · refine forall_mem_append.2 ⟨h.justified, forall_mem_singleton.2 ?_⟩
      intro htype hne
      obtain ⟨hmaj, hon, -⟩ := (hc.precommit htype).justified hne
      exact ⟨hmaj, hon⟩
    · have hrounds := hc.round
      have hheight := hc.height
      refine forall_mem_append.2 ⟨fun c' hc' => forall_mem_append.2
        ⟨h.excused c' hc', forall_mem_singleton.2 ?_⟩, forall_mem_singleton.2
        (forall_mem_append.2 ⟨?_, forall_mem_singleton.2 ?_⟩)⟩
      · -- an earlier precommit and the prevote of this step
        intro htype hne htype' heq hlt hother
        obtain ⟨hrs, hchoice⟩ := hc.prevote htype'
        obtain ⟨hon, -⟩ | hsup := h.holds c' hc' htype hne (heq.symm.trans hheight)
        · exact absurd (hchoice.eq_of_lockedOn hon) hother
        · rw [hrs]
          exact hsup.mono (.refl _) hrounds
      · -- the precommit of this step is not for an earlier round than any prevote
        intro c' hc' htype hne htype' heq hlt
        have := h.past c' hc'
        omega
      · intro htype hne htype'
        rw [htype] at htype'
        cases htype'
    · refine forall_mem_append.2 ⟨hholds, forall_mem_singleton.2 ?_⟩
      intro htype hne _
      obtain ⟨-, hon, hround⟩ := (hc.precommit htype).justified hne
      left
      rw [hentered]
      exact ⟨hon, hround.ge⟩

theorem Promises.stop (h : Promises env s) (hstop : Interrupted P s t) : Promises env t := by
  have hcalls := hstop.calls
  cases hstop with
  | newRound r vals reset hround =>
    refine ⟨?_, h.justified, h.excused, ?_⟩
    · intro c hc
      exact (h.past c hc).imp_right fun hpast => ⟨hpast.1, hpast.2.trans hround⟩
    · intro c hc htype hne hheight
      exact (h.holds c hc htype hne hheight).frame rfl rfl rfl hround (.refl _)

/-- The bookkeeping of a node together with its lock and its promises. -/
structure Locks (env : Env β) (Q : Vote → Prop) (s : State β) : Prop where
  sound : Sound env Q s
  lock : Lock env s.rs
  promises : Promises env s

theorem Locks.kept (hP : P.Delivers Q) : Kept env P (Locks env Q) where
  step h htr := ⟨(Sound.kept hP).step h.sound htr,
    h.lock.step h.sound.position h.sound.votes hP.votes htr,
    h.promises.step h.lock h.sound.position h.sound.votes hP.votes htr⟩
  stop h hstop := ⟨(Sound.kept hP).stop h.sound hstop, h.lock.stop hstop, h.promises.stop hstop⟩

theorem Locks.start (env : Env β) (Q : Vote → Prop) (st : Start) : Locks env Q (.new env st) where
  sound := .start env Q st
  lock := .none rfl rfl rfl le_rfl
  promises := by refine ⟨?_, ?_, ?_, ?_⟩ <;> simp [State.new]

/-- The discipline of a node's lock, with `roundOf` the round of a vote: the lock and a precommit of
a block follow a majority of prevotes, and a later prevote for anything else a later one. -/
structure LockDiscipline (env : Env β) (roundOf : SignCall β → Int) (s : State β) : Prop where
  round_iff : s.rs.lockedRound = -1 ↔ s.rs.lockedBlock = none
  parts_iff : s.rs.lockedBlock = none ↔ s.rs.lockedBlockParts = none
  round_le : s.rs.lockedRound ≤ s.rs.round
  polka : ∀ b ps, s.rs.lockedBlock = some b → s.rs.lockedBlockParts = some ps →
    twoThirdsMajority (s.rs.votes.prevotes s.rs.lockedRound) = some ⟨env.hash b, ps.header⟩
  justified : ∀ c ∈ s.calls, Justified env roundOf c
  excused : ∀ c ∈ s.calls, ∀ c' ∈ s.calls, Excused roundOf c c'

theorem Locks.discipline (h : Locks env Q s) : LockDiscipline env SignCall.round s :=
  ⟨h.lock.round_iff, h.lock.parts_iff, h.lock.round_le, h.lock.polka, h.promises.justified,
    h.promises.excused⟩

/-- If every vote is signed for the round it is cast for, the two readings of its round agree. -/
theorem LockDiscipline.of_round_eq (h : LockDiscipline env SignCall.round s)
    (hround : ∀ c ∈ s.calls, c.rs.round = c.round) :
    LockDiscipline env (fun c => c.rs.round) s := by
  refine ⟨h.round_iff, h.parts_iff, h.round_le, h.polka, ?_, ?_⟩
  · intro c hc htype hne
    simp only [hround c hc]
    exact h.justified c hc htype hne
  · intro c hc c' hc' htype hne htype' hheight hlt hother
    simp only [hround c hc, hround c' hc'] at hlt ⊢
    exact h.excused c hc c' hc' htype hne htype' hheight hlt hother

/-- Every node keeps the discipline for the rounds its votes are cast for, and, if no timeout makes
it vote ahead of its round, for the rounds they carry. -/
theorem lock_discipline (env : Env β) (st : Start) (n : Node β) :
    (Node.Reachable env st (fun _ _ => True) n → LockDiscipline env SignCall.round n.state) ∧
      (Node.Reachable env st OnTime n → LockDiscipline env (fun c => c.rs.round) n.state) := by
  constructor
  · intro h
    exact (h.invariant (Locks.kept (Policy.delivers_forTimeouts fun _ => True)) (.start env _ st)
      fun s e hs _ => hs.sound.suits fun ti hti => Event.allowsTimeout s.rs hti).discipline
  · intro h
    have hsigned := h.invariant
      (SignedSoundly.kept not_ahead_stepOf (Policy.delivers_forTimeouts _))
      ⟨.start env _ st, .start env st⟩
      (fun s e hs he => hs.sound.suits fun ti hti => he.allows hti)
    have hlocks := h.invariant (Locks.kept (Policy.delivers_forTimeouts (· = .propose)))
      (.start env _ st) fun s e hs he => hs.sound.suits fun ti hti => he.allows hti
    exact hlocks.discipline.of_round_eq hsigned.signed.round

theorem lock_discipline_locking : (Node.run observer genesis lockingRun).state.rs.lockedRound = 0 ∧
      LockDiscipline observer (fun c => c.rs.round) (Node.run observer genesis lockingRun).state :=
  ⟨lockingRun_locks.1, (lock_discipline observer genesis _).2 reachable_locking⟩

end CelestiaCore.Consensus
