import CelestiaCore.Light.Detector

/-!
# A header that passed the cross-check was confirmed

What holds when `detectDivergence` returns without an error.
-/
namespace CelestiaCore.Light
open Wire List

section Replies
variable {source : Source} {l b : LightBlock}

/-- A block that a provider returned for a height: in answer to a request for it, or as its latest
block when that has the height. -/
def ReturnedAt (source : Source) (height : Int64) (b : LightBlock) : Prop :=
  ∃ n, source n height = .ok b ∨ source n 0 = .ok b ∧ b.height = height

theorem getTargetBlockOrLatest_returned {height : Int64} {asked : Nat}
    (h : (getTargetBlockOrLatest source height asked).1 = .ok (true, b)) :
    ReturnedAt source height b := by
  unfold getTargetBlockOrLatest at h
  cases h0 : source asked 0 with
  | error e => simp [h0] at h
  | ok latest =>
    simp only [h0] at h
    by_cases heq : latest.height = height
    · rw [if_pos heq] at h
      cases h
      exact ⟨asked, .inr ⟨h0, heq⟩⟩
    · rw [if_neg heq] at h
      by_cases hlt : height < latest.height
      · rw [if_pos hlt] at h
        cases h1 : source (asked + 1) height with
        | error e => simp [h1] at h
        | ok block =>
          obtain rfl : block = b := by simpa [h1] using h
          exact ⟨asked + 1, .inl h1⟩
      · rw [if_neg hlt] at h
        simp at h

theorem witnessReply_returned (h : (witnessReply source l).1 = .atTarget b) :
    ReturnedAt source l.height b := by
  unfold witnessReply at h
  split at h
  case h_1 lightBlock h0 =>
    cases h
    exact ⟨0, .inl h0⟩
  case h_2 h0 =>
    -- the witness was behind: its answers to the requests for its latest block
    split at h
    case h_1 => simp at h
    case h_2 lightBlock n h1 =>
      cases h
      exact getTargetBlockOrLatest_returned (congrArg Prod.fst h1)
    case h_3 =>
      split_ifs at h
      split at h
      case h_1 => split_ifs at h
      case h_2 lightBlock n h1 =>
        cases h
        exact getTargetBlockOrLatest_returned (congrArg Prod.fst h1)
      case h_3 => split_ifs at h
  all_goals simp at h

end Replies

section Compare
variable {cfg : Config} {source : Source} {l : LightBlock}

def comparison (cfg : Config) (l : LightBlock) (source : Source) : Comparison :=
  (compareNewLightBlockWithWitness source cfg.hashes l).1

theorem comparison_eq_headerMatched :
    comparison cfg l source = .headerMatched ↔ ∃ b, (witnessReply source l).1 = .atTarget b ∧
      b.hash cfg.hashes = l.hash cfg.hashes ∧
      cfg.hashes.proposerPriority b.validatorSet = cfg.hashes.proposerPriority l.validatorSet := by
  show compareReply cfg.hashes l (witnessReply source l).1 = .headerMatched ↔ _
  cases (witnessReply source l).1 with
  | atTarget =>
    simp only [compareReply, WitnessReply.atTarget.injEq, exists_eq_left']
    split_ifs with hhash hprio
    · simpa using fun heq => absurd heq.symm hhash
    · simpa using fun _ heq => absurd heq.symm hprio
    · simpa using ⟨(not_not.1 hhash).symm, (not_not.1 hprio).symm⟩
  | conflictingTime => simp [compareReply]
  | badWitness => simp [compareReply]
  | failed => simp [compareReply]

theorem comparison_diverges {b : LightBlock} (hreply : (witnessReply source l).1 = .atTarget b)
    (hhash : b.hash cfg.hashes = l.hash cfg.hashes)
    (hprio : cfg.hashes.proposerPriority b.validatorSet ≠
      cfg.hashes.proposerPriority l.validatorSet) :
    ∃ got wanted, comparison cfg l source = .proposerPrioritiesDiverge got wanted := by
  refine ⟨cfg.hashes.proposerPriority b.validatorSet, cfg.hashes.proposerPriority l.validatorSet,
    ?_⟩
  unfold comparison compareNewLightBlockWithWitness
  simp [hreply, compareReply, hhash, Ne.symm hprio]

end Compare

section Loop
variable {cfg : Config} {now : Time} {fuel : Nat} {primary : Source} {trace : List LightBlock}
  {answers : Nat → Source} {l : LightBlock}

theorem handleConflictingHeaders_eq_ok {witness : Source} {block : LightBlock} {n : Nat}
    {sent : List LightClientAttackEvidence}
    (h : handleConflictingHeaders cfg now fuel primary trace witness block n =
      some (.ok (), sent)) :
    ∃ e m, examineConflictingHeaderAgainstTrace cfg witness now fuel block trace n =
      some (.error e, m) := by
  unfold handleConflictingHeaders at h
  split at h
  case h_1 => simp at h
  case h_2 => simp at h
  case h_3 e m _ hexam => exact ⟨e, m, hexam⟩
  case h_4 =>
    split at h
    case h_1 => simp at h
    case h_2 =>
      split at h
      case h_4 => split at h <;> simp at h
      all_goals simp at h

def Comparison.misbehaved : Comparison → Bool
  | .conflictingHeaders _ => true
  | .badWitness _ => true
  | _ => false

/-- A witness whose reply did not stop the detector. -/
structure Passed (cfg : Config) (now : Time) (fuel : Nat) (trace : List LightBlock) (l : LightBlock)
    (source : Source) : Prop where
  priorities : ∀ got wanted, comparison cfg l source ≠ .proposerPrioritiesDiverge got wanted
  examined : ∀ block, comparison cfg l source = .conflictingHeaders block → ∃ e m,
    examineConflictingHeaderAgainstTrace cfg source now fuel block trace (witnessReply source l).2 =
      some (.error e, m)

theorem handleReplies_eq_ok {order : List Nat}
    {matched matched' : Bool} {removed removed' : List Nat}
    (h : handleReplies cfg now fuel primary trace answers l order matched removed =
      some (.ok (matched', removed'))) :
    (∀ i ∈ order, Passed cfg now fuel trace l (answers i)) ∧ (matched' = true ↔
        matched = true ∨ ∃ i ∈ order, comparison cfg l (answers i) = .headerMatched) ∧
      removed' = removed ++ order.filter fun i => (comparison cfg l (answers i)).misbehaved := by
  induction order generalizing matched removed with
  | nil =>
    obtain ⟨rfl, rfl⟩ : matched = matched' ∧ removed = removed' := by
      simpa [handleReplies] using h
    simp
  | cons i is ih =>
    rw [handleReplies] at h
    rcases hc : compareNewLightBlockWithWitness (answers i) cfg.hashes l with ⟨c, n⟩
    have hcomp : comparison cfg l (answers i) = c := congrArg Prod.fst hc
    have hn : (witnessReply (answers i) l).2 = n := congrArg Prod.snd hc
    rw [hc] at h
    suffices hstep : ∃ m r, handleReplies cfg now fuel primary trace answers l is m r =
        some (.ok (matched', removed')) ∧ Passed cfg now fuel trace l (answers i) ∧
        (m = true ↔ matched = true ∨ c = .headerMatched) ∧
        r = removed ++ if c.misbehaved then [i] else [] by
      obtain ⟨m, r, h, hpassed, hm, rfl⟩ := hstep
      obtain ⟨hall, hmatched, hremoved⟩ := ih h
      refine ⟨forall_mem_cons.2 ⟨hpassed, hall⟩, ?_, ?_⟩
      · simp [hmatched, hm, hcomp, or_assoc]
      · rw [hremoved, filter_cons, hcomp]
        split <;> simp
    cases c with
    | headerMatched =>
      exact ⟨_, _, h, ⟨by simp [hcomp], by simp [hcomp]⟩, by simp, (append_nil _).symm⟩
    | conflictingHeaders block =>
      cases hh : handleConflictingHeaders cfg now fuel primary trace (answers i) block n with
      | none => simp [hh] at h
      | some r =>
        obtain ⟨res, sent⟩ := r
        cases res with
        | error e => simp [hh] at h
        | ok u =>
          simp only [hh] at h
          refine ⟨_, _, h, ⟨by simp [hcomp], fun block' hblock => ?_⟩, by simp, rfl⟩
          obtain rfl : block = block' := by simpa [hcomp] using hblock
          rw [hn]
          exact handleConflictingHeaders_eq_ok hh
    | badWitness => exact ⟨_, _, h, ⟨by simp [hcomp], by simp [hcomp]⟩, by simp, rfl⟩
    | proposerPrioritiesDiverge => simp at h
    | failed e =>
      by_cases hctx : e.isContextError = true
      · simp [hctx] at h
      simp only [hctx, Bool.false_eq_true, if_false] at h
      exact ⟨_, _, h, ⟨by simp [hcomp], by simp [hcomp]⟩, by simp, (append_nil _).symm⟩

end Loop

section Main
variable {α : Type} {cfg : Config} {now : Time} {fuel : Nat} {primary : Source}
  {answers : Nat → Source} {order : List Nat} {witnesses witnesses' : List α}
  {trace : List LightBlock}

theorem detectDivergence_eq_ok
    (h : detectDivergence cfg now fuel primary answers order witnesses trace =
      some (.ok (), witnesses')) : ∃ l removed, trace.getLast? = some l ∧ 2 ≤ trace.length ∧
      handleReplies cfg now fuel primary trace answers l order false [] =
        some (.ok (true, removed)) ∧ removeWitnesses witnesses removed = .ok witnesses' := by
  unfold detectDivergence at h
  cases hlast : trace.getLast? with
  | none => simp [hlast] at h
  | some l =>
    simp only [hlast] at h
    split_ifs at h with hlen hempty
    · simp at h
    · simp at h
    split at h
    case h_1 => simp at h
    case h_2 => simp at h
    case h_3 matched removed hreplies =>
      split at h
      case h_1 => simp at h
      case h_2 ws hws =>
        cases matched with
        | false => simp at h
        | true =>
          cases h
          exact ⟨l, removed, rfl, by omega, hreplies, hws⟩

end Main

/-- Every header that passes the cross-check was confirmed by a witness, for every set of witnesses
and every order of their replies. -/
theorem detectDivergence_confirmed {α : Type} (cfg : Config) (now : Time) (fuel : Nat)
    (primary : Source) (answers : Nat → Source) (order : List Nat) (witnesses witnesses' : List α)
    (trace : List LightBlock) (horder : order.Perm (List.range witnesses.length))
    (h : detectDivergence cfg now fuel primary answers order witnesses trace =
      some (.ok (), witnesses')) :
    ∃ target, trace.getLast? = some target ∧
      -- a witness returned the header with the same proposer priorities
      (∃ i < witnesses.length, ∃ b, ReturnedAt (answers i) target.height b ∧
        b.hash cfg.hashes = target.hash cfg.hashes ∧
        cfg.hashes.proposerPriority b.validatorSet =
          cfg.hashes.proposerPriority target.validatorSet) ∧
      -- no witness returned the header with other proposer priorities
      (∀ i < witnesses.length, ∀ b, (witnessReply (answers i) target).1 = .atTarget b →
        b.hash cfg.hashes = target.hash cfg.hashes →
        cfg.hashes.proposerPriority b.validatorSet =
          cfg.hashes.proposerPriority target.validatorSet) ∧
      -- no conflicting block could be verified from the first block of the trace
      (∀ i < witnesses.length, ∀ b, comparison cfg target (answers i) = .conflictingHeaders b →
        ∃ e m, examineConflictingHeaderAgainstTrace cfg (answers i) now fuel b trace
          (witnessReply (answers i) target).2 = some (.error e, m)) ∧
      -- exactly the misbehaving witnesses are removed
      ∃ removed : List Nat, (∀ i, i ∈ removed ↔ i < witnesses.length ∧
          ((∃ e, comparison cfg target (answers i) = .badWitness e) ∨
            ∃ b, comparison cfg target (answers i) = .conflictingHeaders b)) ∧
        witnesses'.Perm (SwapRemove.others witnesses removed) := by
  obtain ⟨target, removed, hlast, -, hreplies, hremove⟩ := detectDivergence_eq_ok h
  obtain ⟨hpassed, hmatched, hremoved⟩ := handleReplies_eq_ok hreplies
  have hmem : ∀ i, i ∈ order ↔ i < witnesses.length := fun i => by
    rw [horder.mem_iff, mem_range]
  have hmis : ∀ i, i ∈ removed ↔ i < witnesses.length ∧
      ((∃ e, comparison cfg target (answers i) = .badWitness e) ∨
        ∃ b, comparison cfg target (answers i) = .conflictingHeaders b) := by
    intro i
    rw [hremoved, nil_append, mem_filter, hmem]
    refine and_congr_right fun _ => ?_
    cases comparison cfg target (answers i) <;> simp [Comparison.misbehaved]
  refine ⟨target, hlast, ?_, ?_, ?_, removed, hmis, ?_⟩
  · obtain hfalse | ⟨i, hi, hcomp⟩ := hmatched.1 rfl
    · cases hfalse
    · obtain ⟨b, hreply, hhash, hprio⟩ := comparison_eq_headerMatched.1 hcomp
      exact ⟨i, (hmem i).1 hi, b, witnessReply_returned hreply, hhash, hprio⟩
  · intro i hi b hreply hhash
    by_contra hprio
    obtain ⟨got, wanted, hdiv⟩ := comparison_diverges hreply hhash hprio
    exact (hpassed i ((hmem i).2 hi)).priorities got wanted hdiv
  · exact fun i hi => (hpassed i ((hmem i).2 hi)).examined
  · unfold removeWitnesses at hremove
    split_ifs at hremove
    cases hremove
    refine SwapRemove.removeAll_sorted witnesses removed ?_ fun i hi => ((hmis i).1 hi).1
    rw [hremoved, nil_append]
    exact (horder.nodup_iff.2 nodup_range).filter _

/-- Two witnesses: the second has the header, and the first, which sent a bad block, is removed. -/
theorem detectDivergence_confirmed_two : ([1, 0] : List Nat).Perm (List.range 2) ∧
      detectDivergence exampleConfig 100 5 (fun _ h => .ok (exampleBlock h 1))
        (fun i _ h => if i = 0 then .error .badLightBlock else .ok (exampleBlock h 1)) [1, 0]
        ["w0", "w1"] [exampleBlock 1 1, exampleBlock 6 1] = some (.ok (), ["w1"]) ∧
      ∃ removed : List Nat, ["w1"].Perm (SwapRemove.others ["w0", "w1"] removed) := by
  have hrun : detectDivergence exampleConfig 100 5 (fun _ h => .ok (exampleBlock h 1))
      (fun i _ h => if i = 0 then .error .badLightBlock else .ok (exampleBlock h 1)) [1, 0]
      ["w0", "w1"] [exampleBlock 1 1, exampleBlock 6 1] = some (.ok (), ["w1"]) := by
    decide +kernel
  obtain ⟨-, -, -, -, -, removed, -, hperm⟩ := detectDivergence_confirmed _ _ _ _ _ _ _ _ _
    (by decide) hrun
  exact ⟨by decide, hrun, removed, hperm⟩

end CelestiaCore.Light
