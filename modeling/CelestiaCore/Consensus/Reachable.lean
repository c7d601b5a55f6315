import CelestiaCore.Consensus.EventSteps

/-!
# Reachable nodes

What every step of the transition relation keeps holds at every reachable node.
-/
namespace CelestiaCore.Consensus
open Wire Relation Program

variable {β : Type} {env : Env β} {P : Policy} {st : Start} {ok : State β → Event → Prop}
  {I : State β → Prop}

/-- The nodes reached from the start through events that `ok` admits. -/
inductive Node.Reachable (env : Env β) (st : Start) (ok : State β → Event → Prop) :
    Node β → Prop
  | start : Reachable env st ok (.start env st)
  | step {n : Node β} (o : Oracle β) (e : Event) (hn : Reachable env st ok n)
      (hok : ok n.state e) : Reachable env st ok (n.step env (o, e))

variable (env st) in
theorem Node.reachable_run (inputs : List (Oracle β × Event)) :
    Reachable env st (fun _ _ => True) (Node.run env st inputs) := by
  induction inputs using List.reverseRecOn with
  | nil => exact .start
  | append_singleton inputs input ih =>
    rw [run, List.foldl_append]
    exact .step input.1 input.2 ih trivial

/-- A property that no step loses, not even one a panic interrupts. -/
structure Kept (env : Env β) (P : Policy) (I : State β → Prop) : Prop where
  step : ∀ {s t}, I s → Transition env P s t → I t
  stop : ∀ {s t}, I s → Interrupted P s t → I t

/-- What holds at the start and is kept by every step of a policy that suits the admissible events
holds until a panic, and in the state that panicked. -/
theorem Node.Reachable.running {n : Node β} (h : Reachable env st ok n) (hstart : I (.new env st))
    (hstep : ∀ {s t}, I s → Transition env P s t → I t)
    (hsuits : ∀ s e, I s → ok s e → P.Suits env s e) :
    (n.halted = none → I n.state) ∧ ∀ p, n.halted = some p → ∃ u, I u ∧ Fault env P u p := by
  induction h with
  | start => exact ⟨fun _ => hstart, by simp [Node.start]⟩
  | @step n o e _ hok ih =>
    unfold Node.step
    cases hhalt : n.halted with
    | some p => exact ⟨by simp [hhalt], by simpa [hhalt] using ih.2 p hhalt⟩
    | none =>
      have hn := ih.1 hhalt
      have hruns := handle_runs o (hsuits _ _ hn hok)
      unfold Runs at hruns
      cases hrun : (handle env o e).run n.state with
      | ok a t =>
        rw [hrun] at hruns
        exact ⟨fun _ => invariant_of_steps (I := I) (fun _ _ => hstep) hn hruns.1, by simp⟩
      | error p t =>
        rw [hrun] at hruns
        obtain ⟨-, u, hu, hfault⟩ := hruns
        refine ⟨by simp, ?_⟩
        intro q hq
        cases hq
        exact ⟨u, invariant_of_steps (I := I) (fun _ _ => hstep) hn hu, hfault⟩

theorem Kept.node_step (hI : Kept env P I) {n : Node β} (hn : I n.state) (o : Oracle β)
    {e : Event} (hsuits : P.Suits env n.state e) : I (n.step env (o, e)).state := by
  have hruns := handle_runs o hsuits
  unfold Runs at hruns
  unfold Node.step
  cases n.halted with
  | some p => exact hn
  | none =>
    cases hrun : (handle env o e).run n.state with
    | ok a t =>
      rw [hrun] at hruns
      exact invariant_of_steps (I := I) (fun _ _ => hI.step) hn hruns.1
    | error p t =>
      rw [hrun] at hruns
      exact invariant_of_steps (I := I)
        (fun _ _ hs hst => hst.elim (hI.step hs) (hI.stop hs)) hn hruns.1

theorem Node.Reachable.invariant {n : Node β} (h : Reachable env st ok n) (hI : Kept env P I)
    (hstart : I (.new env st)) (hsuits : ∀ s e, I s → ok s e → P.Suits env s e) : I n.state := by
  induction h with
  | start => exact hstart
  | step o e _ hok ih => exact hI.node_step ih o (hsuits _ _ ih hok)

section SmallChain

def soleValidator : Validator :=
  ⟨List.replicate 20 1, some ⟨.ed25519, List.replicate 32 1⟩, 10, 0⟩

/-- A node without a private validator on a chain of one validator, all of whose signatures
verify. -/
def observer : Env Unit where
  config := ⟨⟨0, 0, 0, 0, 0, 0, 0⟩, false, true, 0, true⟩
  crypto := ⟨fun _ => List.replicate 20 1, fun _ _ _ => true⟩
  digest := ⟨fun _ => List.replicate hashSize 0, by simp⟩
  hasPrivValidator := false
  hash := fun _ => List.replicate hashSize 2
  height := fun _ => 1
  time := fun _ => 0
  blockFromBytes := fun _ => .ok ()
  length_hash := by simp

def soleValidators : BoundedValidatorSet :=
  ⟨⟨[soleValidator], some soleValidator, true⟩, by simp [soleValidator], by decide⟩

def genesis : Start where
  sm :=
    { chainID := [1], initialHeight := 1, lastBlockHeight := 0, validators := soleValidators,
      maxBytes := -1, voteExtensionsEnableHeight := 0, appHash := [],
      timeouts := ⟨0, 0, 0, 0, 0, 0, 0⟩, initialHeight_pos := by decide,
      initialHeight_le := by decide, lastBlockHeight_nonneg := by decide,
      lastBlockHeight_lt := by decide }
  lastCommit := none
  privValidatorPubKey := none
  now := 0
  accounts := by simp
  lastCommit_isSome h := absurd h (lt_irrefl _)

def quiet : Oracle Unit where
  now := fun _ => 0
  walFlushFails := false
  walWriteFails := false
  walEndHeightFails := false
  publishVoteFails := false
  publishUnlockFails := false
  publishValidBlockFails := false
  quit := false
  lastBlockAppHash := fun _ => none
  blockStoreHeight := 0
  makePartSet := fun _ => .error ""
  createProposalBlock := fun _ _ _ => .ok none
  proposeBlockFails := false
  signProposal := fun _ _ => .ok []
  signVote := fun _ v => .ok ⟨[], v.timestamp, []⟩
  extendVote := fun _ _ _ => .ok []
  verifyVoteExtension := fun _ => none
  validateBlock := fun _ _ => none
  processProposal := fun _ _ => .ok true
  applyVerifiedBlock := fun sm _ _ => .ok sm
  commitSizeMatches := fun _ _ => true
  getPubKey := .error ""

/-- The block of the run below, and its one part. -/
def soleBlock : BlockID := ⟨List.replicate hashSize 2, 1, List.replicate hashSize 0⟩

def solePart : Part := ⟨0, [1], ⟨1, 0, List.replicate hashSize 0, []⟩⟩

def soleProposal : Proposal where
  type := .proposal
  height := 1
  round := 0
  polRound := -1
  blockID := soleBlock
  timestamp := 0
  signature := [1]

def soleVote (type : SignedMsgType) (r : Int32) (id : BlockID) : Vote where
  type := type
  height := 1
  round := r
  blockID := id
  timestamp := 0
  validatorAddress := soleValidator.address
  validatorIndex := 0
  signature := [1]
  extension := []
  extensionSignature := []

/-- The node prevotes the proposed block; with the prevote of the validator it locks and precommits
the block. -/
def lockingRun : List (Oracle Unit × Event) :=
  [(quiet, .timeout 0 1 0 .newHeight), (quiet, .peer (.proposal soleProposal) [1]),
    (quiet, .recovered 1 0 solePart), (quiet, .peer (.vote (soleVote .prevote 0 soleBlock)) [1])]

theorem lockingRun_locks : (Node.run observer genesis lockingRun).state.rs.lockedRound = 0 ∧
    (Node.run observer genesis lockingRun).state.calls.map
      (fun c => (c.msgType, c.rs.height, c.rs.round)) = [(.prevote, 1, 0), (.precommit, 1, 0)] := by
  decide +kernel

theorem reachable_lockingRun {ok : State Unit → Event → Prop}
    (hstart : ok (.new observer genesis) (.timeout 0 1 0 .newHeight))
    (hmessage : ∀ s e, e.timeoutInfo = none → ok s e) :
    Node.Reachable observer genesis ok (Node.run observer genesis lockingRun) := by
  simp only [Node.run, lockingRun, List.foldl_cons, List.foldl_nil]
  exact .step quiet _ (.step quiet _ (.step quiet _ (.step quiet _ .start hstart)
    (hmessage _ _ rfl)) (hmessage _ _ rfl)) (hmessage _ _ rfl)

end SmallChain

end CelestiaCore.Consensus
