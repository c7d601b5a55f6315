import CelestiaCore.Consensus.Bookkeeping

/-!
# The assertions of the state machine

A node that handles only timeouts of its own reaches none of the assertions about its bookkeeping.
-/
namespace CelestiaCore.Consensus
open Wire HeightVoteSet State

variable {β : Type} {env : Env β} {P : Policy} {Q : Vote → Prop} {s t : State β}

def Scheduled (s : State β) (e : Event) : Prop := ∀ ti, e.timeoutInfo = some ti → ti ∈ s.timeouts

/-- No timeout of the current height is for a round the node has not reached. -/
def Timely (s : State β) : Prop :=
  ∀ ti ∈ s.timeouts, ti.height < s.rs.height ∨ ti.height = s.rs.height ∧ ti.round ≤ s.rs.round

theorem Timely.step (h : Timely s) (hpos : Positioned s) (hahead : ¬P.ahead .propose)
    (htr : Transition env P s t) : Timely t := by
  have hadv := htr.advances hpos
  have hold : ∀ ti ∈ s.timeouts,
      ti.height < t.rs.height ∨ ti.height = t.rs.height ∧ ti.round ≤ t.rs.round := by
    intro ti hti
    have hti := h ti hti
    unfold Advances at hadv
    omega
  cases htr with
  | schedule ti hheight hround =>
    intro ti' hti'
    obtain hti' | hti' := List.mem_append.1 hti'
    · exact hold ti' hti'
    · obtain rfl := List.mem_singleton.1 hti'
      refine Or.inr ⟨hheight, ?_⟩
      obtain hle | hzero | hahead' := hround
      · exact hle
      · exact hzero.le.trans hpos.round_nonneg
      · exact absurd hahead'.1 hahead
  | _ => exact hold

/-- The vote sets are tracked up to the round after the node's, or less at the start. -/
structure Tracked (s : State β) : Prop where
  lower : s.rs.round ≤ s.rs.votes.round
  upper : s.rs.votes.round ≤ s.rs.round + 1

theorem Tracked.sameRound {r : Int} (h : Tracked s) (hround : s.rs.round ≤ r)
    (hle : r ≤ s.rs.round) : r ≤ s.rs.votes.round ∧ s.rs.votes.round ≤ r + 1 := by
  obtain rfl := le_antisymm hround hle
  exact ⟨h.lower, h.upper⟩

theorem not_ahead {step : RoundStepType} {r : Int} (hP : ¬P.ahead step)
    (h : r ≤ s.rs.round ∨ P.Ahead step r) : r ≤ s.rs.round := by
  obtain h | h := h
  · exact h
  · exact absurd h.1 hP

theorem Tracked.step (h : Tracked s) (hvoted : Voted env Q s) (hQ : ∀ v, P.handles (.vote v) → Q v)
    (hP : ∀ step, ¬P.ahead step) (htr : Transition env P s t) : Tracked t := by
  cases htr with
  | newRound r vals votes hround hmax hstep hleave hvotes =>
    obtain ⟨-, hr, -⟩ := setRound_spec env.crypto Q hvotes
    constructor
    · simp only [mapRS, hr]
      omega
    · simp only [mapRS, hr]
      exact le_rfl
  | propose r hround hstep hahead =>
    obtain ⟨hl, hu⟩ := h.sameRound hround (not_ahead (hP _) hahead)
    exact ⟨hl, hu⟩
  | prevote r id votes hround hstep hahead =>
    obtain ⟨hl, hu⟩ := h.sameRound hround (not_ahead (hP _) hahead)
    exact ⟨hl, hu⟩
  | precommit r rs' id votes hround hstep hahead hid =>
    obtain ⟨hl, hu⟩ := h.sameRound hround (not_ahead (hP _) hahead)
    cases hid <;> exact ⟨hl, hu⟩
  | addVote v peerID ext hv =>
    obtain ⟨-, hr, -⟩ := addVote_spec peerID ext
      hvoted.consistent (hQ v hv)
    constructor
    · simp only [mapRS, hr]
      exact h.lower
    · simp only [mapRS, hr]
      exact h.upper
  | claimMajority r type peerID id =>
    obtain ⟨-, hr, -⟩ := setPeerMaj23_spec hvoted.consistent r type peerID id
    constructor
    · simp only [mapRS, hr]
      exact h.lower
    · simp only [mapRS, hr]
      exact h.upper
  | newHeight =>
    exact ⟨le_rfl, (by omega : (0 : Int) ≤ 0 + 1)⟩
  | _ => exact ⟨h.lower, h.upper⟩

theorem Fault.isAssertion_eq_false {p : Panic} (hs : Sound env Q s) (htracked : Tracked s)
    (hQ : ∀ v, P.handles (.vote v) → Q v) (hP : ∀ step, ¬P.ahead step)
    (h : Fault env P s p) : p.isAssertion = false := by
  cases h with
  | foreign hp => exact hp
  | polRound r id hround hahead hmaj =>
    have hle := not_ahead (hP _) hahead
    have hpos := hs.position.round_nonneg
    have hpolInfo := le_polInfo (hpos.trans hround)
      (hle.trans htracked.lower) hmaj
    omega
  | setRound r p hround herr =>
    obtain ⟨rfl, -, hlt⟩ | rfl | rfl | rfl := setRound_error herr
    · have hupper := htracked.upper
      omega
    · rfl
    · rfl
    · rfl
  | precommitWait r id hmaj hany =>
    obtain ⟨vs, hvs, hmaj⟩ := Option.bind_eq_some_iff.1 hmaj
    have hacc := (hs.votes.consistent.precommits hvs).accounts
    simp [hasTwoThirdsAny, hvs, hacc.hasTwoThirdsAny hmaj] at hany
  | votes v peerID ext p hv herr =>
    obtain ⟨-, -, -, -, hforeign⟩ := addVote_spec peerID ext
      hs.votes.consistent (hQ v hv)
    obtain rfl | rfl | rfl | rfl := hforeign p herr <;> rfl
  | lastCommit v vs p hvs herr =>
    obtain rfl | rfl := VoteSet.addVote_error (hs.votes.lastCommit vs hvs) herr <;> rfl

/-- The bookkeeping of a node that handles only its own timeouts. -/
structure OnSchedule (env : Env β) (s : State β) : Prop where
  sound : Sound env (fun v => v.blockID.WellFormed) s
  timely : Timely s
  tracked : Tracked s

def ownTimeouts : Policy := .forTimeouts fun _ => False

theorem OnSchedule.start (env : Env β) (st : Start) : OnSchedule env (.new env st) where
  sound := .start env _ st
  timely := by
    intro ti hti
    obtain rfl := List.mem_singleton.1 hti
    exact Or.inr ⟨rfl, le_rfl⟩
  tracked := ⟨le_rfl, (by omega : (0 : Int) ≤ 0 + 1)⟩

theorem OnSchedule.step (h : OnSchedule env s) (htr : Transition env ownTimeouts s t) :
    OnSchedule env t where
  sound := (Sound.kept (Policy.delivers_forTimeouts _)).step h.sound htr
  timely := h.timely.step h.sound.position id htr
  tracked := h.tracked.step h.sound.votes (Policy.delivers_forTimeouts _).votes (fun _ => id) htr

theorem Timely.allows (h : Timely s) {e : Event} (he : Scheduled s e) {ti : TimeoutInfo}
    (hti : e.timeoutInfo = some ti) : P.AllowsTimeout s.rs ti := by
  intro hheight hround
  obtain hlt | hle := h ti (he ti hti)
  · omega
  · omega

/-- A node that handles well-formed messages and its own timeouts never stops at an assertion. -/
theorem assertions_unreachable {env : Env β} {st : Start} {n : Node β}
    (h : Node.Reachable env st Scheduled n) : n.halted.any Panic.isAssertion = false := by
  have hinv := h.running (OnSchedule.start env st) (fun h htr => h.step htr)
    (fun s e hs he => hs.sound.suits fun ti hti => hs.timely.allows he hti)
  cases hhalt : n.halted with
  | none => rfl
  | some p =>
    obtain ⟨u, hu, hfault⟩ := hinv.2 p hhalt
    exact hfault.isAssertion_eq_false hu.sound hu.tracked (Policy.delivers_forTimeouts _).votes
      (fun _ => id)

theorem assertions_unreachable_locking :
    (Node.run observer genesis lockingRun).state.rs.lockedRound = 0 ∧
      (Node.run observer genesis lockingRun).halted.any Panic.isAssertion = false := by
  have hstart : Scheduled (.new observer genesis) (.timeout 0 1 0 .newHeight) := by
    rintro ti ⟨⟩
    decide +kernel
  refine ⟨lockingRun_locks.1, assertions_unreachable (reachable_lockingRun hstart fun s e he => ?_)⟩
  simp [Scheduled, he]

end CelestiaCore.Consensus
