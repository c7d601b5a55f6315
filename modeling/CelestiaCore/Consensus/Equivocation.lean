import CelestiaCore.Consensus.Assertions

/-!
# The votes a node signs

Every call of `signAddVote` lies strictly before the position of the node, as long as no timeout
makes it vote for a round ahead of its own. -/
namespace CelestiaCore.Consensus
open Wire List

variable {β : Type} {env : Env β} {P : Policy} {s t : State β}

def stepOf (type : SignedMsgType) : RoundStepType :=
  if type = .precommit then .precommit else .prevote

def Past (rs : RoundState β) (c : SignCall β) : Prop :=
  c.rs.height < rs.height ∨ c.rs.height = rs.height ∧
    (c.rs.round < rs.round ∨ c.rs.round = rs.round ∧ stepOf c.msgType ≤ rs.step)

theorem stepOf_le_precommit (type : SignedMsgType) : stepOf type ≤ .precommit := by
  unfold stepOf
  split_ifs <;> decide

theorem Past.advance {rs rs' : RoundState β} {c : SignCall β} (h : Past rs c)
    (hadv : Advances rs rs') : Past rs' c := by
  have hle := stepOf_le_precommit c.msgType
  obtain hlt | ⟨hheight, hadv⟩ := hadv
  · left
    unfold Past at h
    omega
  · obtain h | ⟨heq, h⟩ := h
    · exact .inl (hheight ▸ h)
    · refine .inr ⟨heq.trans hheight.symm, ?_⟩
      obtain hlt | ⟨hround, hstep⟩ := hadv
      · left
        omega
      · rw [hround]
        refine h.imp_right fun h => ⟨h.1, ?_⟩
        exact hstep.elim h.2.trans hle.trans

/-- A call of `signAddVote` in the step from `s` to `t`. -/
structure Calls (env : Env β) (P : Policy) (s t : State β) (c : SignCall β) : Prop where
  type : c.msgType = .prevote ∨ c.msgType = .precommit
  height : c.rs.height = s.rs.height
  signed : c.rs.round = s.rs.round
  round : s.rs.round ≤ c.round
  step : s.rs.round = c.round → s.rs.step < stepOf c.msgType
  ahead : c.round ≤ s.rs.round ∨ P.Ahead (stepOf c.msgType) c.round
  entered : t.rs = { c.rs with round := c.round, step := stepOf c.msgType }
  prevote : c.msgType = .prevote → c.rs = s.rs ∧ PrevoteChoice env s.rs c.blockID
  precommit : c.msgType = .precommit → PrecommitChoice env s.rs c.round c.rs (some c.blockID)

theorem prevote_ne_precommit : SignedMsgType.prevote ≠ .precommit := by decide

theorem Transition.calls (h : Transition env P s t) :
    t.calls = s.calls ∨ ∃ c, t.calls = s.calls ++ [c] ∧ Calls env P s t c := by
  cases h with
  | prevote r id votes hround hstep hahead hid =>
    cases id with
    | none => exact .inl (by simp [State.mapRS, castVote])
    | some id =>
      exact .inr ⟨⟨.prevote, id, r, s.rs⟩, rfl, .inl rfl, rfl, rfl, hround, hstep, hahead,
        rfl, fun _ => ⟨rfl, hid id rfl⟩, fun htype => absurd htype prevote_ne_precommit⟩
  | precommit r rs' id votes hround hstep hahead hid =>
    cases id with
    | none => exact .inl (by simp [State.mapRS, castVote])
    | some id =>
      refine .inr ⟨⟨.precommit, id, r, rs'⟩, rfl, .inr rfl, ?_, ?_, hround, hstep, hahead,
        rfl, fun htype => absurd htype.symm prevote_ne_precommit, fun _ => hid⟩
      all_goals cases hid <;> rfl
  | _ => exact .inl rfl

theorem Interrupted.calls (h : Interrupted P s t) : t.calls = s.calls := by
  cases h
  rfl

/-- At most one prevote and one precommit for each height and round, the prevote first, and each
for the round of the node. -/
structure NoEquivocation (s : State β) : Prop where
  once : s.calls.Pairwise fun c c' => c.rs.height = c'.rs.height → c.rs.round = c'.rs.round →
    c.msgType = .prevote ∧ c'.msgType = .precommit
  round : ∀ c ∈ s.calls, c.rs.round = c.round

/-- The calls so far lie in the past. -/
structure Signed (s : State β) : Prop extends NoEquivocation s where
  past : ∀ c ∈ s.calls, Past s.rs c
  types : ∀ c ∈ s.calls, c.msgType = .prevote ∨ c.msgType = .precommit

theorem Past.prevote_before {c c' : SignCall β} (hpast : Past s.rs c)
    (htype : c.msgType = .prevote ∨ c.msgType = .precommit) (hcalls : Calls env P s t c')
    (hround : c'.rs.round = c'.round) (hheight : c.rs.height = c'.rs.height)
    (heq : c.rs.round = c'.rs.round) : c.msgType = .prevote ∧ c'.msgType = .precommit := by
  have hstep := hcalls.step (hcalls.signed.symm.trans hround)
  have hpos := hcalls.height
  have hsigned := hcalls.signed
  have hle : stepOf c.msgType ≤ s.rs.step := by
    obtain hlt | ⟨-, hlt | ⟨-, hle⟩⟩ := hpast
    · omega
    · omega
    · exact hle
  have hlt := hle.trans_lt hstep
  obtain h | h := htype <;> obtain h' | h' := hcalls.type
  · rw [h, h'] at hlt
    exact absurd hlt (lt_irrefl _)
  · exact ⟨h, h'⟩
  · rw [h, h'] at hlt
    exact absurd hlt (by decide)
  · rw [h, h'] at hlt
    exact absurd hlt (lt_irrefl _)

theorem Calls.round_eq {c : SignCall β} (h : Calls env P s t c)
    (hP : ∀ type, ¬P.ahead (stepOf type)) : c.rs.round = c.round := by
  have hle := not_ahead (hP c.msgType) h.ahead
  exact h.signed.trans (le_antisymm h.round hle)

theorem Calls.past {c : SignCall β} (h : Calls env P s t c) (hround : c.rs.round = c.round) :
    Past t.rs c := by
  rw [h.entered]
  exact .inr ⟨rfl, .inr ⟨hround, le_rfl⟩⟩

theorem Signed.step (h : Signed s) (hpos : Positioned s) (hP : ∀ type, ¬P.ahead (stepOf type))
    (htr : Transition env P s t) : Signed t := by
  have hadv := htr.advances hpos
  obtain hcalls | ⟨c, hcalls, hc⟩ := htr.calls
  · refine ⟨⟨?_, ?_⟩, ?_, ?_⟩ <;> rw [hcalls]
    · exact h.once
    · exact h.round
    · exact fun c hc => (h.past c hc).advance hadv
    · exact h.types
  · have hround := hc.round_eq hP
    refine ⟨⟨?_, ?_⟩, ?_, ?_⟩ <;> rw [hcalls]
    · refine pairwise_append.2 ⟨h.once, pairwise_singleton _ _, ?_⟩
      intro c' hc' c'' hc''
      obtain rfl := mem_singleton.1 hc''
      exact (h.past c' hc').prevote_before (h.types c' hc') hc hround
    · rw [forall_mem_append]
      exact ⟨h.round, by simpa using hround⟩
    · rw [forall_mem_append]
      exact ⟨fun c' hc' => (h.past c' hc').advance hadv, by simpa using hc.past hround⟩
    · rw [forall_mem_append]
      exact ⟨h.types, by simpa using hc.type⟩

theorem Signed.stop (h : Signed s) (hstop : Interrupted P s t) : Signed t := by
  refine ⟨⟨?_, ?_⟩, ?_, ?_⟩ <;> rw [hstop.calls]
  · exact h.once
  · exact h.round
  · exact fun c hc => (h.past c hc).advance hstop.advances
  · exact h.types

theorem Signed.start (env : Env β) (st : Start) : Signed (.new env st) := by
  refine ⟨⟨?_, ?_⟩, ?_, ?_⟩ <;> simp [State.new]

/-- Timeouts that make the node vote are not for a later round than its own. -/
def OnTime (s : State β) (e : Event) : Prop :=
  ∀ ti, e.timeoutInfo = some ti → ti.height = s.rs.height →
    ti.step ∈ [.propose, .prevoteWait, .precommitWait] → ti.round ≤ s.rs.round

/-- The policy of a node whose timeouts may start a later round, but vote only in its own. -/
def votesOnTime : Policy := .forTimeouts (· = .propose)

theorem not_ahead_stepOf (type : SignedMsgType) : ¬votesOnTime.ahead (stepOf type) := by
  unfold stepOf
  split_ifs <;> exact nofun

theorem OnTime.allows {e : Event} (h : OnTime s e) {ti : TimeoutInfo}
    (hti : e.timeoutInfo = some ti) : votesOnTime.AllowsTimeout s.rs ti := by
  intro hheight hround
  have hmax := Event.timeoutInfo_round_le hti
  have hvote : ti.step ∉ [RoundStepType.propose, .prevoteWait, .precommitWait] := by
    intro hmem
    have := h ti hti hheight hmem
    omega
  refine ⟨fun _ => trivial, ?_⟩
  cases hstep : ti.step with
  | newRound => exact ⟨rfl, hmax⟩
  | propose => simp [hstep] at hvote
  | prevoteWait => simp [hstep] at hvote
  | precommitWait => simp [hstep] at hvote
  | _ => trivial

/-- The bookkeeping of a node together with the votes it signed. -/
structure SignedSoundly (env : Env β) (s : State β) : Prop where
  sound : Sound env (fun v => v.blockID.WellFormed) s
  signed : Signed s

theorem SignedSoundly.kept (hP : ∀ type, ¬P.ahead (stepOf type))
    (hdel : P.Delivers fun v => v.blockID.WellFormed) : Kept env P (SignedSoundly env) where
  step h htr := ⟨(Sound.kept hdel).step h.sound htr, h.signed.step h.sound.position hP htr⟩
  stop h hstop := ⟨(Sound.kept hdel).stop h.sound hstop, h.signed.stop hstop⟩

/-- As long as no timeout makes it vote ahead of its round, a node signs at most one prevote and one
precommit for each height and round, the prevote first, each for its own round. -/
theorem no_equivocation {env : Env β} {st : Start} {n : Node β}
    (h : Node.Reachable env st OnTime n) : NoEquivocation n.state := by
  have hinv := h.invariant
    (SignedSoundly.kept not_ahead_stepOf (Policy.delivers_forTimeouts _))
    ⟨.start env _ st, .start env st⟩
    (fun s e hs he => hs.sound.suits fun ti hti => he.allows hti)
  exact hinv.signed.toNoEquivocation

theorem reachable_locking :
    Node.Reachable observer genesis OnTime (Node.run observer genesis lockingRun) := by
  have hstart : OnTime (.new observer genesis) (.timeout 0 1 0 .newHeight) := by
    rintro ti ⟨⟩ -
    decide +kernel
  refine reachable_lockingRun hstart fun s e he => ?_
  simp [OnTime, he]

theorem no_equivocation_locking : (Node.run observer genesis lockingRun).state.calls.map
        (fun c => (c.msgType, c.rs.height, c.rs.round)) = [(.prevote, 1, 0), (.precommit, 1, 0)] ∧
      NoEquivocation (Node.run observer genesis lockingRun).state :=
  ⟨lockingRun_locks.2, no_equivocation reachable_locking⟩

/-- The timeouts of the first round and then a proposal timeout of round 5, which the node has not
reached. -/
def earlyTimeout : List (Oracle Unit × Event) :=
  [(quiet, .timeout 0 1 0 .newHeight), (quiet, .timeout 0 1 0 .propose),
    (quiet, .timeout 0 1 5 .propose)]

/-- The early timeout makes the node prevote a second time in round 0. -/
theorem earlyTimeout_equivocates : ((Node.run observer genesis earlyTimeout).state.calls.map
      fun c => (c.msgType, c.rs.height, c.rs.round, c.round)) =
        [(.prevote, 1, 0, 0), (.prevote, 1, 0, 5)] ∧
      ¬NoEquivocation (Node.run observer genesis earlyTimeout).state := by
  have hcalls : ((Node.run observer genesis earlyTimeout).state.calls.map
      fun c => (c.msgType, c.rs.height, c.rs.round, c.round)) =
        [(.prevote, 1, 0, 0), (.prevote, 1, 0, 5)] := by decide +kernel
  refine ⟨hcalls, fun h => ?_⟩
  have hround : ∀ x ∈ (Node.run observer genesis earlyTimeout).state.calls.map
      fun c => (c.msgType, c.rs.height, c.rs.round, c.round), x.2.2.1 = x.2.2.2 := by
    intro x hx
    obtain ⟨c, hc, rfl⟩ := mem_map.1 hx
    exact h.round c hc
  rw [hcalls] at hround
  simp at hround

end CelestiaCore.Consensus
