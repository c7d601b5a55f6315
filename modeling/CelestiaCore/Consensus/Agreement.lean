import CelestiaCore.Consensus.Network

/-!
# Agreement

Whatever two nodes of a network finalize at its height is the same block.
-/
namespace CelestiaCore.Consensus
open Wire Quorum List Function Option

variable {ι β : Type} {N : Network ι β} {env : Env β} {P : Policy} {Q Q' : Vote → Prop}
  {s t : State β}

theorem HeightVoteSet.Consistent.mono {crypto : Crypto} {hvs : HeightVoteSet}
    (h : hvs.Consistent crypto Q) (hQ : ∀ v, Q v → Q' v) : hvs.Consistent crypto Q' := by
  have htracks : ∀ {r type vs}, hvs.Tracks crypto Q r type vs → hvs.Tracks crypto Q' r type vs :=
    fun ht => { ht with votes := ht.votes.mono fun v hv => ⟨hQ v hv.1, hv.2⟩ }
  intro r rvs hrvs
  exact ⟨htracks (h r rvs hrvs).1, htracks (h r rvs hrvs).2⟩

theorem Locks.mono (h : Locks env Q s) (hQ : ∀ v, Q v → Q' v) : Locks env Q' s :=
  { h with
    sound := { h.sound with
      votes := { h.sound.votes with consistent := h.sound.votes.consistent.mono hQ } } }

theorem PrecommitChoice.votes_eq {rs rs' : RoundState β} {r : ℤ} {id : Option BlockID}
    (h : PrecommitChoice env rs r rs' id) : rs'.votes = rs.votes := by
  cases h <;> rfl

theorem Calls.votes_eq {c : SignCall β} (h : Calls env P s t c) : c.rs.votes = s.rs.votes := by
  obtain htype | htype := h.type
  · rw [(h.prevote htype).1]
  · exact (h.precommit htype).votes_eq

namespace Network
variable {nodes nodes' : ι → Node β} {X X' : ℤ → BlockID → Prop} {D D' : BlockID → Prop}

/-- A node at the height of the network keeps votes for its chain and validators. -/
structure Setting (N : Network ι β) (s : State β) : Prop where
  height_le : N.height ≤ s.rs.height
  votes : s.rs.height = N.height →
    s.rs.votes.chainID = N.chainID ∧ s.rs.votes.valSet.1.validators = N.vals.1.validators

theorem Setting.step (h : N.Setting s) (hsound : Sound env Q s)
    (hQ : ∀ v, P.handles (.vote v) → Q v) (htr : Transition env P s t) : N.Setting t := by
  have hle := (htr.advances hsound.position).height_le
  have hle' := h.height_le
  refine ⟨hle'.trans hle, fun heq => ?_⟩
  have hheight : t.rs.height = s.rs.height := by omega
  have hext := hsound.votes.extends hQ htr hheight hsound.position
  rw [hext.chainID, hext.valSet]
  exact h.votes (hheight.symm.trans heq)

theorem Setting.stop (h : N.Setting s) (hstop : Interrupted P s t) : N.Setting t := by
  cases hstop
  exact ⟨h.height_le, h.votes⟩

theorem Setting.start (N : Network ι β) (i : ι) : N.Setting (.new (N.env i) (N.start i)) where
  height_le := (N.height_eq i).ge
  votes _ := ⟨N.chainID_eq i, N.vals_eq i⟩

theorem Setting.tally (h : N.Setting s) (hcrypto : env.crypto = N.crypto) (hvoted : Voted env Q s)
    (hheight : s.rs.height = N.height) : N.Tally Q s.rs.votes where
  consistent := hcrypto ▸ hvoted.consistent
  height := hvoted.height.trans hheight
  chainID := (h.votes hheight).1
  vals := (h.votes hheight).2

/-- What is known of a node that was in state `s` before, where `X` holds of the majorities of
prevotes it has voted on and `D` of the blocks it has decided on. -/
structure Progress (N : Network ι β) (env : Env β) (Q : Vote → Prop) (X : ℤ → BlockID → Prop)
    (D : BlockID → Prop) (s t : State β) : Prop where
  locks : Locks env Q t
  ordered : Ordered t
  setting : N.Setting t
  since : Since s t
  seen : ∀ c ∈ t.calls, c.rs.height = N.height → ∀ q id,
    twoThirdsMajority (c.rs.votes.prevotes q) = some id → X q id
  decided : ∀ f ∈ t.finalized, f.height = N.height → D ⟨env.hash f.block, f.parts.header⟩

theorem Progress.start (N : Network ι β) (Q : Vote → Prop) (X : ℤ → BlockID → Prop)
    (D : BlockID → Prop) (i : ι) :
    N.Progress (N.env i) Q X D (.new (N.env i) (N.start i)) (.new (N.env i) (N.start i)) where
  locks := .start _ _ _
  ordered := .start _ _
  setting := .start N i
  since := .refl _
  seen := by simp [State.new]
  decided := by simp [State.new]

theorem Progress.mono (h : N.Progress env Q X D s t) (hQ : ∀ v, Q v → Q' v)
    (hX : ∀ q id, X q id → X' q id) (hD : ∀ id, D id → D' id) : N.Progress env Q' X' D' t t where
  locks := h.locks.mono hQ
  ordered := h.ordered
  setting := h.setting
  since := .refl t
  seen c hc hheight q id hmaj := hX q id (h.seen c hc hheight q id hmaj)
  decided f hf hheight := hD _ (h.decided f hf hheight)

theorem Progress.kept (s₀ : State β) (hP : P.Delivers Q) (hcrypto : env.crypto = N.crypto)
    (hX : ∀ hvs q id, N.Tally Q hvs → twoThirdsMajority (hvs.prevotes q) = some id → X q id)
    (hD : ∀ hvs r id, N.Tally Q hvs → twoThirdsMajority (hvs.precommits r) = some id →
      id.hash.length ≠ 0 → D id) : Kept env P (N.Progress env Q X D s₀) where
  step := by
    intro s t h htr
    have hsound := h.locks.sound
    have hpos := hsound.position
    refine ⟨(Locks.kept hP).step h.locks htr, h.ordered.step hpos htr,
      h.setting.step hsound hP.votes htr, h.since.step hpos htr, ?_, ?_⟩
    · obtain hcalls | ⟨c, hcalls, hc⟩ := htr.calls <;> rw [hcalls]
      · exact h.seen
      · refine forall_mem_append.2 ⟨h.seen, forall_mem_singleton.2 ?_⟩
        intro hheight q id hmaj
        rw [hc.votes_eq] at hmaj
        exact hX _ q id (h.setting.tally hcrypto hsound.votes (hc.height.symm.trans hheight)) hmaj
    · cases htr with
      | finalize b parts id hstep hmaj hblock hparts hhash hnonzero hheader =>
        refine forall_mem_append.2 ⟨h.decided, forall_mem_singleton.2 ?_⟩
        intro hheight
        dsimp only at hheight ⊢
        rw [hhash, hheader]
        exact hD _ _ id (h.setting.tally hcrypto hsound.votes hheight) hmaj hnonzero
      | _ => exact h.decided
  stop := by
    intro s t h hstop
    refine ⟨(Locks.kept hP).stop h.locks hstop, h.ordered.stop hstop, h.setting.stop hstop,
      h.since.stop hstop, ?_, ?_⟩
    · rw [hstop.calls]
      exact h.seen
    · cases hstop
      exact h.decided

variable {id : BlockID} {k : ℕ}

section Growth
variable (hsince : ∀ i, Since (nodes i).state (nodes' i).state)
include hsince

theorem Casts.mono {type : SignedMsgType} {r : ℤ} (h : N.Casts nodes k type r id) :
    N.Casts nodes' k type r id := by
  obtain ⟨i, howner, c, hc, hrest⟩ := h
  exact ⟨i, howner, c, (hsince i).old c hc, hrest⟩

theorem Authentic.mono {v : Vote} (h : N.Authentic nodes v) : N.Authentic nodes' v := by
  intro hheight k i val pk bytes howner hval hpk hbytes hsig
  obtain ⟨c, hc, hrest⟩ := h hheight k i val pk bytes howner hval hpk hbytes hsig
  exact ⟨c, (hsince i).old c hc, hrest⟩

theorem Delivered.mono {v : Vote} (h : N.Delivered nodes v) : N.Delivered nodes' v :=
  ⟨h.1, h.2.mono hsince⟩

theorem ballots_grow : Ballots.Grows N.committee (N.ballots nodes) (N.ballots nodes') where
  precommitted := by
    rintro k r id - ⟨i, howner, c, hc, hsigns, htype, hheight, hround, hid⟩
    obtain hold | hnew := (hsince i).new c hc
    · exact .inl ⟨i, howner, c, hold, hsigns, htype, hheight, hround, hid⟩
    right
    rintro ⟨j, howner', hpassed⟩
    obtain rfl : i = j := by
      rw [howner] at howner'
      exact some.inj howner'
    omega
  passed := by
    rintro k r - ⟨i, howner, hpassed⟩
    have hposition := (hsince i).position
    refine ⟨i, howner, ?_⟩
    omega

def Decided (N : Network ι β) (nodes : ι → Node β) (id : BlockID) : Prop :=
  id ≠ .zero ∧ ∃ r, N.committee.HasQuorum fun k => (N.ballots nodes).precommitted k r id

theorem Decided.mono (h : N.Decided nodes id) : N.Decided nodes' id := by
  obtain ⟨hne, r, hquorum⟩ := h
  exact ⟨hne, r, hquorum.mono fun _ _ hcasts => hcasts.mono hsince⟩

end Growth

/-- No other block than one with a quorum of prevotes can be decided in an earlier round. -/
abbrev Excludes (N : Network ι β) (nodes : ι → Node β) : ℤ → BlockID → Prop :=
  (N.ballots nodes).Excludes N.committee .zero

structure Inv (N : Network ι β) (nodes : ι → Node β) : Prop where
  node : ∀ i, N.Progress (N.env i) (N.Delivered nodes) (N.Excludes nodes) (N.Decided nodes)
    (nodes i).state (nodes i).state
  quorum : ∀ q id, (N.committee.HasQuorum fun k => (N.ballots nodes).prevoted k q id) →
    N.Excludes nodes q id

theorem passed_of_prevoted (hordered : ∀ i, Ordered (nodes i).state) {r q : ℤ}
    (h : (N.ballots nodes).prevoted k q id) (hlt : r < q) : (N.ballots nodes).passed k r := by
  obtain ⟨i, howner, c, hc, -, -, hheight, hround, -⟩ := h
  have hle := (hordered i).round_le c hc
  refine ⟨i, howner, ?_⟩
  obtain hpast | ⟨heq, hpast⟩ := (hordered i).past c hc
  · exact .inl (hheight ▸ hpast)
  have heq : c.rs.height = (nodes i).state.rs.height := heq
  have hpast : c.round ≤ (nodes i).state.rs.round := by
    obtain hlt | ⟨heq, -⟩ := hpast
    · exact hlt.le
    · exact heq.le
  omega

/-- A validator that prevotes for another block than it precommitted has seen that block
excluded. -/
theorem excused_of_prevoted
    (hnode : ∀ i, N.Progress (N.env i) Q (N.Excludes nodes) D (nodes i).state (nodes i).state)
    {r q : ℤ} {id id' : BlockID} (hpre : (N.ballots nodes).precommitted k r id)
    (hprevoted : (N.ballots nodes).prevoted k q id') (hlt : r < q) (hne : id ≠ .zero)
    (hother : id ≠ id') : ∃ p u, r < p ∧ id ≠ u ∧ N.Excludes nodes p u := by
  obtain ⟨i, howner, c, hc, -, htype, hheight, hround, hid⟩ := hpre
  obtain ⟨j, howner', c', hc', -, htype', hheight', hround', hid'⟩ := hprevoted
  obtain rfl : i = j := by
    rw [howner] at howner'
    exact some.inj howner'
  have hle := (hnode i).ordered.round_le c hc
  have hle' := (hnode i).ordered.round_le c' hc'
  have hcast : c.round < c'.round := by
    have htypes : c.msgType ≠ c'.msgType := by
      rw [htype, htype']
      decide
    obtain hbefore | hbefore := (hnode i).ordered.before_or_before hc hc' htypes
    · obtain hlt | ⟨-, -, hlt | hstep⟩ := hbefore
      · omega
      · exact hlt
      · rw [htype, htype'] at hstep
        exact absurd hstep (by decide)
    · -- the prevote would have been made before the precommit of an earlier round
      obtain hlt | ⟨-, hround, -⟩ := hbefore <;> omega
  obtain ⟨p, u, hp, -, hmaj, hu⟩ := (hnode i).locks.promises.excused c hc c' hc' htype (hid ▸ hne)
    htype' (hheight'.trans hheight.symm) hcast (by rw [hid, hid']; exact hother.symm)
  refine ⟨p, u, by omega, ?_, (hnode i).seen c' hc' hheight' p u hmaj⟩
  rw [← hid]
  exact hu.symm

theorem Inv.of_nodes (hnode : ∀ i, N.Progress (N.env i) (N.Delivered nodes) (N.Excludes nodes)
    (N.Decided nodes) (nodes i).state (nodes i).state) : N.Inv nodes where
  node := hnode
  quorum q id hquorum := by
    refine Ballots.excludes_of_quorum ?_ ?_ hquorum
    · intro k r _ hprevoted hlt
      exact passed_of_prevoted (fun i => (hnode i).ordered) hprevoted hlt
    · intro k r w _ hpre hprevoted hlt hne hother
      exact excused_of_prevoted hnode hpre hprevoted hlt hne hother

theorem Inv.start (N : Network ι β) : N.Inv fun i => .start (N.env i) (N.start i) :=
  .of_nodes fun i => .start N _ _ _ i

theorem Inv.progress (h : N.Inv nodes) (i : ι) (o : Oracle β) {e : Event}
    (hvote : ∀ v, e.message (nodes i).state = some (.vote v) → N.Authentic nodes v) :
    N.Progress (N.env i) (N.Delivered nodes) (N.Excludes nodes) (N.Decided nodes) (nodes i).state
      ((nodes i).step (N.env i) (o, e)).state := by
  have hrange : ∀ j, ∀ c ∈ (nodes j).state.calls, c.InRange := fun j => (h.node j).ordered.inRange
  have hkept := Progress.kept (nodes i).state (X := N.Excludes nodes)
    (D := N.Decided nodes) (policy_delivers nodes) (N.crypto_eq i)
    (fun hvs q id htally hmaj => h.quorum q id (htally.quorum .prevote hrange rfl hmaj))
    (fun hvs r id htally hmaj hne => by
      refine ⟨?_, r, htally.quorum .precommit hrange rfl hmaj⟩
      rintro rfl
      exact hne rfl)
  exact hkept.node_step (h.node i) o (policy_suits (h.node i).locks.sound hvote)

theorem Inv.step [DecidableEq ι] (h : N.Inv nodes) (i : ι) (o : Oracle β) {e : Event}
    (hvote : ∀ v, e.message (nodes i).state = some (.vote v) → N.Authentic nodes v) :
    N.Inv (update nodes i ((nodes i).step (N.env i) (o, e))) := by
  have hprogress : ∀ j, N.Progress (N.env j) (N.Delivered nodes) (N.Excludes nodes)
      (N.Decided nodes) (nodes j).state
      (update nodes i ((nodes i).step (N.env i) (o, e)) j).state := by
    intro j
    obtain rfl | hj := eq_or_ne j i
    · rw [update_self]
      exact h.progress j o hvote
    · rw [update_of_ne hj]
      exact h.node j
  have hsince := fun j => (hprogress j).since
  exact .of_nodes fun j => (hprogress j).mono (fun v hv => hv.mono hsince)
    (fun q id hX => hX.grows (ballots_grow hsince)) (fun id hD => hD.mono hsince)

theorem Reachable.inv [DecidableEq ι] (h : N.Reachable nodes) : N.Inv nodes := by
  induction h with
  | start => exact .start N
  | step i o e _ hvote ih => exact ih.step i o hvote

theorem Inv.justified (h : N.Inv nodes) {r : ℤ} (hpre : (N.ballots nodes).precommitted k r id)
    (hne : id ≠ .zero) : ∃ p, r ≤ p ∧ N.Excludes nodes p id := by
  obtain ⟨i, -, c, hc, -, htype, hheight, hround, hid⟩ := hpre
  have hle := (h.node i).ordered.round_le c hc
  obtain ⟨hmaj, -⟩ := (h.node i).locks.promises.justified c hc htype (hid ▸ hne)
  rw [hid] at hmaj
  exact ⟨c.round, by omega, (h.node i).seen c hc hheight c.round id hmaj⟩

theorem SignsOnce.eq (h : N.SignsOnce nodes) {r : ℤ} {id id' : BlockID}
    (hpre : (N.ballots nodes).precommitted k r id)
    (hpre' : (N.ballots nodes).precommitted k r id') : id = id' := by
  obtain ⟨i, howner, c, hc, hsigns, htype, hheight, hround, rfl⟩ := hpre
  obtain ⟨j, howner', c', hc', hsigns', htype', hheight', hround', rfl⟩ := hpre'
  obtain rfl : i = j := by
    rw [howner] at howner'
    exact some.inj howner'
  have : Std.Symm fun c c' : SignCall β => N.signs i c → N.signs i c' →
      c.rs.height = N.height → c'.rs.height = N.height → c.msgType = c'.msgType →
      c.rs.round ≠ c'.rs.round :=
    ⟨fun _ _ hR hs hs' hh hh' ht hr => hR hs' hs hh' hh ht.symm hr.symm⟩
  by_contra hne
  have hcc : c ≠ c' := fun heq => hne (heq ▸ rfl)
  exact (h i).forall hc hc' hcc hsigns hsigns' hheight hheight' (htype.trans htype'.symm)
    (hround.trans hround'.symm)

/-- Agreement: in a network whose nodes sign at most one prevote and one precommit a round, any two
nodes that finalize a block at its height finalize the same one. -/
theorem agreement [DecidableEq ι] (h : N.Reachable nodes) (honce : N.SignsOnce nodes)
    {i j : ι} {f f' : Finalization β} (hf : f ∈ (nodes i).state.finalized)
    (hf' : f' ∈ (nodes j).state.finalized) (hheight : f.height = N.height)
    (hheight' : f'.height = N.height) : (⟨(N.env i).hash f.block, f.parts.header⟩ : BlockID) =
      ⟨(N.env j).hash f'.block, f'.parts.header⟩ := by
  have hinv := h.inv
  obtain ⟨hne, r, hquorum⟩ := (hinv.node i).decided f hf hheight
  obtain ⟨hne', r', hquorum'⟩ := (hinv.node j).decided f' hf' hheight'
  exact Ballots.eq_of_quorums (fun k r id _ hpre hne => hinv.justified hpre hne)
    (fun k r id id' _ hpre hpre' => honce.eq hpre hpre') hquorum hquorum' hne hne'

/-- A quorum has precommitted the block, and in no later round is there a quorum of prevotes for
another one, or a precommit by a node. -/
def Final (N : Network ι β) (nodes : ι → Node β) (id : BlockID) : Prop :=
  ∃ r, (N.committee.HasQuorum fun k => N.Casts nodes k .precommit r id) ∧
    (∀ q id', r < q → (N.committee.HasQuorum fun k => N.Casts nodes k .prevote q id') → id' = id) ∧
    ∀ k q id', r < q → N.Casts nodes k .precommit q id' → id' = .zero ∨ id' = id

theorem finalized_final [DecidableEq ι] (h : N.Reachable nodes) {i : ι} {f : Finalization β}
    (hf : f ∈ (nodes i).state.finalized) (hheight : f.height = N.height) :
    N.Final nodes ⟨(N.env i).hash f.block, f.parts.header⟩ := by
  obtain ⟨hne, r, hquorum⟩ := (h.inv.node i).decided f hf hheight
  have hpossible := Ballots.possible_of_quorum hquorum
  refine ⟨r, hquorum, fun q id hlt hprevotes => ?_, fun k q id hlt hpre => ?_⟩
  · by_contra hother
    exact h.inv.quorum q id hprevotes r _ hlt hne (Ne.symm hother) hpossible
  · by_contra! hother
    obtain ⟨p, hp, hexcludes⟩ := h.inv.justified hpre hother.1
    exact hexcludes r _ (hlt.trans_le hp) hne hother.2.symm hpossible

section SmallChain

/-- As the quiet environment, with an application that applies the first block. -/
def applying : Oracle Unit :=
  { quiet with
    applyVerifiedBlock := fun _ _ _ =>
      .ok { genesis.sm with
        lastBlockHeight := 1
        lastBlockHeight_nonneg := by decide
        lastBlockHeight_lt := by decide } }

/-- Two nodes of the small chain, the first of which is the node of its validator. -/
def twoNodes : Network Bool Unit where
  env _ := observer
  start _ := genesis
  crypto := observer.crypto
  chainID := genesis.sm.chainID
  height := 1
  vals := soleValidators
  owner k := if k = 0 then some true else none
  signs _ _ := True
  crypto_eq _ := rfl
  height_eq _ := rfl
  chainID_eq _ := rfl
  vals_eq _ := rfl
  minority := by decide

/-- The first node decides on a block with its own votes; the second one gets the precommit and
then the block. -/
def deciding : List (Bool × Oracle Unit × Event) :=
  lockingRun.map (true, ·) ++
    [(true, applying, .peer (.vote (soleVote .precommit 0 soleBlock)) [1]),
    (false, quiet, .peer (.vote (soleVote .precommit 0 soleBlock)) [1]),
    (false, applying, .recovered 1 0 solePart)]

def twoNodesAfter (n : Nat) : Bool → Node Unit :=
  (deciding.take n).foldl
    (fun nodes (i, o, e) => Function.update nodes i ((nodes i).step observer (o, e)))
    fun _ => .start observer genesis

def signedByFirst (nodes : Bool → Node Unit) (v : Vote) : Bool :=
  (nodes true).state.calls.any fun c => decide (voteSignBytes genesis.sm.chainID
    { unsignedVote observer quiet c.rs ⟨.ed25519, []⟩ c.msgType c.blockID with timestamp := 0 } =
      voteSignBytes genesis.sm.chainID v)

theorem twoNodes_vote {nodes : Bool → Node Unit} {i : Bool} {v : Vote}
    (h : signedByFirst nodes v = true) :
    ∀ v', (Event.peer (.vote v) [1]).message (nodes i).state = some (.vote v') →
      twoNodes.Authentic nodes v' := by
  intro v' hv' _ k i val pk bytes howner _ _ hbytes _
  simp only [Event.message, ite_none_right_eq_some, some.injEq,
    Message.vote.injEq] at hv'
  obtain ⟨-, rfl⟩ := hv'
  obtain ⟨c, hc, heq⟩ := any_eq_true.1 h
  simp only [twoNodes, ite_none_right_eq_some, some.injEq] at howner
  obtain ⟨-, rfl⟩ := howner
  exact ⟨c, hc, trivial, quiet, _, 0, (of_decide_eq_true heq).trans hbytes⟩

theorem twoNodes_run : (signedByFirst (twoNodesAfter 3) (soleVote .prevote 0 soleBlock) = true ∧
      signedByFirst (twoNodesAfter 4) (soleVote .precommit 0 soleBlock) = true ∧
      signedByFirst (twoNodesAfter 5) (soleVote .precommit 0 soleBlock) = true) ∧
    (∀ i, (twoNodesAfter 7 i).state.calls.Pairwise
      fun c c' => c.msgType = c'.msgType → c.rs.round ≠ c'.rs.round) ∧
    ∀ i, ((twoNodesAfter 7 i).state.finalized.map (·.height)) = [1] := by
  decide +kernel

theorem twoNodes_reachable : twoNodes.Reachable (twoNodesAfter 7) := by
  obtain ⟨hprevote, hprecommit, hprecommit'⟩ := twoNodes_run.1
  have h1 : twoNodes.Reachable (twoNodesAfter 1) :=
    .step true quiet _ .start (by simp [Event.message])
  have h2 : twoNodes.Reachable (twoNodesAfter 2) := .step true quiet _ h1 (by simp [Event.message])
  have h3 : twoNodes.Reachable (twoNodesAfter 3) := .step true quiet _ h2 (by simp [Event.message])
  have h4 : twoNodes.Reachable (twoNodesAfter 4) :=
    .step true quiet _ h3 (twoNodes_vote hprevote)
  have h5 : twoNodes.Reachable (twoNodesAfter 5) :=
    .step true applying _ h4 (twoNodes_vote hprecommit)
  have h6 : twoNodes.Reachable (twoNodesAfter 6) :=
    .step false quiet _ h5 (twoNodes_vote hprecommit')
  exact .step false applying _ h6 (by simp [Event.message])

/-- Both nodes decide on the first height, and on the same block. -/
theorem agreement_twoNodes :
    ∃ f ∈ (twoNodesAfter 7 true).state.finalized, ∃ f' ∈ (twoNodesAfter 7 false).state.finalized,
      f.height = 1 ∧ f'.height = 1 ∧ (⟨observer.hash f.block, f.parts.header⟩ : BlockID) =
          ⟨observer.hash f'.block, f'.parts.header⟩ := by
  obtain ⟨-, hone, hfinal⟩ := twoNodes_run
  have honce : twoNodes.SignsOnce (twoNodesAfter 7) :=
    fun i => (hone i).imp fun h _ _ _ _ => h
  have hexists : ∀ i, ∃ f ∈ (twoNodesAfter 7 i).state.finalized, f.height = 1 := by
    intro i
    have hmem : 1 ∈ (twoNodesAfter 7 i).state.finalized.map (·.height) := by simp [hfinal i]
    exact mem_map.1 hmem
  obtain ⟨f, hf, hheight⟩ := hexists true
  obtain ⟨f', hf', hheight'⟩ := hexists false
  exact ⟨f, hf, f', hf', hheight, hheight',
    agreement twoNodes_reachable honce hf hf' hheight hheight'⟩

theorem finalized_final_twoNodes : ∃ f ∈ (twoNodesAfter 7 false).state.finalized,
    twoNodes.Final (twoNodesAfter 7) ⟨observer.hash f.block, f.parts.header⟩ := by
  have hexists : ∀ i, ∃ f ∈ (twoNodesAfter 7 i).state.finalized, f.height = 1 :=
    fun i => mem_map.1 (by simp [twoNodes_run.2.2 i])
  obtain ⟨f, hf, hheight⟩ := hexists false
  exact ⟨f, hf, finalized_final twoNodes_reachable (i := false) hf hheight⟩

end SmallChain

end Network

end CelestiaCore.Consensus
