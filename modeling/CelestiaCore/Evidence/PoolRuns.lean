import CelestiaCore.Evidence.Pool

/-!
# Committed evidence and pending evidence

Pending and committed evidence stay apart in every run in which nothing is marked as committed while
it is pending or while a thread is about to add it. -/
namespace CelestiaCore.EvidencePool
open Wire Program Relation List

def WhenCommitted (key : Int64 × Bytes) : (e : Call) → e.Answer → Prop
  | .isCommitted ev, found => ev.key = key → found = true
  | _, _ => True

def NotAdding (key : Int64 × Bytes) : Call → Prop
  | .addPendingEvidence ev => ev.key ≠ key
  | _ => True

/-- A thread that is not between its check that a key is not committed and its write of the key:
once the key is committed, it does not add it. -/
def Guarded (key : Int64 × Bytes) (t : Work (Option String)) : Prop :=
  t.Obeys (WhenCommitted key) (NotAdding key) fun _ => True

def WhenSettled (key : Int64 × Bytes) : (e : Call) → e.Answer → Prop
  | .isCommitted ev, found => ev.key = key → found = true
  | .isPending ev, found => ev.key = key → found = false
  | _, _ => True

section Programs
open Thread
variable {key : Int64 × Bytes}

theorem guarded_addEvidence (ev : Item) : Guarded key (addEvidence ev) := by
  refine .bind (.perform trivial fun pending _ => ?_)
  refine .ite (fun _ => trivial) fun _ => ?_
  refine .bind (.perform trivial fun committed hcommitted => ?_)
  refine .ite (fun _ => trivial) fun hnot => ?_
  refine .bind (.perform trivial fun err _ => ?_)
  cases err with
  | some err => trivial
  | none =>
    refine .bind (.perform (fun hkey => hnot (hcommitted hkey)) fun err _ => ?_)
    cases err with
    | some err => trivial
    | none => trivial

theorem guarded_examineEvidence (ev : Item) : Guarded key (examineEvidence ev) := by
  refine .bind (.perform trivial fun committed hcommitted => ?_)
  refine .ite (fun _ => trivial) fun hnot => ?_
  refine .bind (.perform trivial fun err _ => ?_)
  cases err with
  | some err => trivial
  | none => exact .bind (.perform (fun hkey => hnot (hcommitted hkey)) fun _ _ => trivial)

theorem guarded_checkUnknown (ev : Item) : Guarded key (checkUnknown ev) := by
  refine .seq (.ite (fun _ => trivial) fun _ => ⟨trivial, fun _ _ => trivial⟩)
    fun known => ?_
  exact .ite (fun _ => trivial) fun _ => guarded_examineEvidence ev

theorem guarded_checkEvidenceFrom (hashes : List Bytes) (evList : List Item) :
    Guarded key (checkEvidenceFrom hashes evList) := by
  induction evList generalizing hashes with
  | nil => trivial
  | cons ev rest ih =>
    refine .seq (guarded_checkUnknown ev) fun err => ?_
    cases err with
    | some err => trivial
    | none => exact .ite (fun _ => trivial) fun _ => ih _

theorem obeys_flushVotes (votes : List VotePair) :
    (flushVotes votes).Obeys (WhenCommitted key) (NotAdding key) fun _ => True := by
  induction votes with
  | nil => trivial
  | cons pair rest ih =>
    refine .bind (.perform trivial fun formed _ => ?_)
    cases formed with
    | none => exact ih
    | some dve =>
      refine .bind (.perform trivial fun pending _ => .ite (fun _ => ih) fun _ => ?_)
      refine .bind (.perform trivial fun committed hcommitted => ?_)
      refine .ite (fun _ => ih) fun hnot => ?_
      exact .bind (.perform (fun hkey => hnot (hcommitted hkey)) fun _ _ => ih)

theorem obeys_processConsensusBuffer :
    processConsensusBuffer.Obeys (WhenCommitted key) (NotAdding key) fun _ => True := by
  refine .bind (.perform trivial fun _ _ => ?_)
  refine .bind (.perform trivial fun buffer _ => ?_)
  refine .seq (obeys_flushVotes buffer) fun _ => ?_
  exact .bind (.perform trivial fun _ _ => .perform trivial fun _ _ => trivial)

theorem obeys_dropPending (ev : Item) :
    (dropPending ev).Obeys (WhenCommitted key) (NotAdding key) fun _ => True := by
  refine .bind (.perform trivial fun pending _ => ?_)
  exact .ite (fun _ => ⟨trivial, fun _ _ => trivial⟩) fun _ => trivial

theorem obeys_markEvidenceAsCommitted (evList : List Item) :
    (markEvidenceAsCommitted evList).Obeys (WhenCommitted key) (NotAdding key) fun _ => True := by
  induction evList with
  | nil => trivial
  | cons ev rest ih =>
    refine .seq (obeys_dropPending ev) fun _ => ?_
    exact .bind (.perform trivial fun _ _ => ih)

theorem obeys_removeExpired (evs : List Item) :
    (removeExpired evs).Obeys (WhenCommitted key) (NotAdding key) fun _ => True := by
  induction evs with
  | nil => trivial
  | cons ev rest ih =>
    refine .bind (.perform trivial fun expired _ => ?_)
    exact .ite (fun _ => .bind (.perform trivial fun _ _ => ih)) fun _ => trivial

theorem guarded_update (evList : List Item) : Guarded key (update evList) := by
  refine .seq obeys_processConsensusBuffer fun _ => ?_
  refine .seq (obeys_markEvidenceAsCommitted evList) fun _ => ?_
  refine .bind (.perform trivial fun due _ => ?_)
  refine .ite (fun _ => ?_) fun _ => trivial
  refine .bind (.perform trivial fun evs _ => ?_)
  exact .seq (obeys_removeExpired evs) fun _ => trivial

theorem guarded_reportConflictingVotes (votes : VotePair) :
    Guarded key (reportConflictingVotes votes) := by
  refine .bind (.perform trivial fun _ _ => ?_)
  refine .bind (.perform trivial fun _ _ => ?_)
  exact .bind (.perform trivial fun _ _ => trivial)

theorem Starts.guarded {t : Work (Option String)} (h : Starts t) : Guarded key t := by
  cases h with
  | addEvidence ev => exact guarded_addEvidence ev
  | checkEvidence evList => exact guarded_checkEvidenceFrom [] evList
  | update evList => exact guarded_update evList
  | reportConflictingVotes votes => exact guarded_reportConflictingVotes votes

theorem checkUnknown_rejects {ev : Item} (hkey : ev.key = key) :
    (checkUnknown ev).Obeys (WhenSettled key) (fun _ => True) (· ≠ none) := by
  have hknown : (knownEvidence ev).Obeys (WhenSettled key) (fun _ => True) (· = false) :=
    Obeys.ite (fun _ => rfl) fun _ => ⟨trivial, fun found hfound => hfound hkey⟩
  have hexamine : (examineEvidence ev).Obeys (WhenSettled key) (fun _ => True) (· ≠ none) := by
    refine .bind ⟨trivial, fun committed hcommitted => ?_⟩
    exact .ite (fun _ => Option.some_ne_none _) fun hnot => absurd (hcommitted hkey) hnot
  refine .bind (hknown.weaken fun known hfalse => ?_)
  exact .ite (fun htrue => absurd (hfalse.symm.trans htrue) Bool.false_ne_true)
    fun _ => hexamine

theorem checkEvidenceFrom_rejects (hashes : List Bytes) {evList : List Item}
    (h : ∃ ev ∈ evList, ev.key = key) :
    (checkEvidenceFrom hashes evList).Obeys (WhenSettled key) (fun _ => True) (· ≠ none) := by
  induction evList generalizing hashes with
  | nil => simp at h
  | cons ev rest ih =>
    by_cases hkey : ev.key = key
    · refine .bind ((checkUnknown_rejects hkey).weaken fun err herr => ?_)
      cases err with
      | some err => exact Option.some_ne_none _
      | none => exact absurd rfl herr
    · have hrest : ∃ ev ∈ rest, ev.key = key := by
        obtain ⟨ev', hmem, hkey'⟩ := h
        rcases mem_cons.1 hmem with rfl | hmem
        · exact absurd hkey' hkey
        · exact ⟨ev', hmem, hkey'⟩
      refine .seq (.intro _) fun err => ?_
      cases err with
      | some err => exact Option.some_ne_none _
      | none => exact .ite (fun _ => Option.some_ne_none _) fun _ => ih _ hrest

end Programs

def Pool.Separate (p : Pool) : Prop := ∀ ev ∈ p.pending, ev.key ∉ p.committed

abbrev PoolWorld := World Pool Call Call.Answer (Option String)

/-- The condition on a step: evidence is marked as committed when it is not pending and no thread is
about to add it. -/
def Clean (w : PoolWorld) : Call → Prop
  | .setCommitted ev => w.state.hasPending ev.key = false ∧ ∀ t ∈ w.threads, Guarded ev.key t
  | _ => True

abbrev CleanStep : PoolWorld → PoolWorld → Prop := World.Step Pool.handle Starts Clean

structure Inv (w : PoolWorld) : Prop where
  separate : w.state.Separate
  guarded : ∀ key ∈ w.state.committed, ∀ t ∈ w.threads, Guarded key t

section Handle
variable {e : Call} {p p' : Pool} {a : e.Answer} {key : Int64 × Bytes}

theorem handle_cases (h : Pool.handle e p a p') :
    (p'.committed = p.committed ∧ ∀ ev ∈ p'.pending, ev ∈ p.pending) ∨
      (∃ ev, e = .addPendingEvidence ev ∧ p' = p.setPending ev) ∨
      ∃ ev, e = .setCommitted ev ∧ p' = { p with committed := ev.key :: p.committed } := by
  cases e with
  | isPending ev | isCommitted ev | readBuffer | listPending =>
    obtain ⟨rfl, -⟩ := h
    exact .inl ⟨rfl, fun _ hev => hev⟩
  | verify ev | formEvidence votes | pruneDue | isExpired ev =>
    obtain rfl := h
    exact .inl ⟨rfl, fun _ hev => hev⟩
  | unlock | appendBuffer votes | resetBuffer =>
    obtain rfl := h
    exact .inl ⟨rfl, fun _ hev => hev⟩
  | lock =>
    obtain ⟨-, rfl⟩ := h
    exact .inl ⟨rfl, fun _ hev => hev⟩
  | addPendingEvidence ev =>
    cases a with
    | none => exact .inr (.inl ⟨ev, rfl, h⟩)
    | some err =>
      obtain rfl := h
      exact .inl ⟨rfl, fun _ hev => hev⟩
  | removePendingEvidence =>
    obtain rfl := h
    exact .inl ⟨rfl, fun _ hev => mem_of_mem_filter hev⟩
  | setCommitted ev => exact .inr (.inr ⟨ev, rfl, h⟩)

theorem handle_added (ev : Item) (p : Pool) :
    Pool.handle (.addPendingEvidence ev) p (none : Option String) (p.setPending ev) := rfl

theorem committed_mono (h : Pool.handle e p a p') (hkey : key ∈ p.committed) :
    key ∈ p'.committed := by
  obtain ⟨heq, -⟩ | ⟨ev, -, rfl⟩ | ⟨ev, -, rfl⟩ := handle_cases h
  · rwa [heq]
  · exact hkey
  · exact mem_cons_of_mem _ hkey

theorem whenCommitted_of_handle (h : Pool.handle e p a p') (hkey : key ∈ p.committed) :
    WhenCommitted key e a := by
  cases e with
  | isCommitted =>
    rintro rfl
    rw [h.2]
    exact contains_iff_mem.2 hkey
  | _ => trivial

theorem whenSettled_of_handle (h : Pool.handle e p a p') (hp : p.Separate)
    (hkey : key ∈ p.committed) : WhenSettled key e a := by
  cases e with
  | isCommitted =>
    rintro rfl
    rw [h.2]
    exact contains_iff_mem.2 hkey
  | isPending =>
    rintro rfl
    rw [h.2, Pool.hasPending, any_eq_false]
    intro ev' hev' heq
    exact hp ev' hev' (of_decide_eq_true heq ▸ hkey)
  | _ => trivial

end Handle

variable {w w' : PoolWorld}

theorem Inv.step (hinv : Inv w) (h : CleanStep w w') : Inv w' := by
  have hkept : ∀ key ∈ w.state.committed, ∀ t ∈ w'.threads, Guarded key t := fun key hkey =>
    h.forall_obeys (fun e a s ha => whenCommitted_of_handle ha hkey) (fun t ht => ht.guarded)
      (hinv.guarded key hkey)
  cases h with
  | spawn => exact ⟨hinv.separate, hkept⟩
  | @run i e next a s hthread hclean hanswer =>
    have hmem := mem_of_getElem? hthread
    obtain ⟨heq, hsub⟩ | ⟨ev, rfl, rfl⟩ | ⟨ev, rfl, rfl⟩ := handle_cases hanswer
    · constructor
      case separate =>
        intro ev hev
        rw [heq]
        exact hinv.separate ev (hsub ev hev)
      case guarded =>
        intro key hkey
        exact hkept key (heq ▸ hkey)
    · constructor
      case separate =>
        intro ev' hev'
        rcases (mem_orderedInsert _).1 hev' with rfl | hev'
        · -- the thread that adds it is guarded for every committed key
          intro hcommitted
          exact (hinv.guarded _ hcommitted _ hmem).1 rfl
        · exact hinv.separate ev' (mem_of_mem_filter hev')
      case guarded => exact hkept
    · obtain ⟨hpending, hguarded⟩ := hclean
      constructor
      case separate =>
        intro ev' hev' hkey
        rcases mem_cons.1 hkey with hkey | hkey
        · rw [Pool.hasPending, any_eq_false] at hpending
          exact hpending ev' hev' (by simpa using hkey)
        · exact hinv.separate ev' hev' hkey
      case guarded =>
        intro key hkey
        rcases mem_cons.1 hkey with rfl | hkey
        · intro t ht
          rcases mem_or_eq_of_mem_set ht with ht | rfl
          · exact hguarded t ht
          · exact (hguarded _ hmem).2 _ trivial
        · exact hkept key hkey

theorem Inv.run (hinv : Inv w) (h : ReflTransGen CleanStep w w') : Inv w' := by
  induction h with
  | refl => exact hinv
  | tail _ hstep ih => exact ih.step hstep

theorem CleanStep.committed (h : CleanStep w w') {key : Int64 × Bytes}
    (hkey : key ∈ w.state.committed) : key ∈ w'.state.committed := by
  cases h with
  | spawn => exact hkey
  | run i hthread hclean hanswer => exact committed_mono hanswer hkey

theorem Inv.rejects (hinv : Inv w) (h : ReflTransGen CleanStep w w')
    {key : Int64 × Bytes} (hkey : key ∈ w.state.committed) {i : ℕ} {t : Work (Option String)}
    (ht : w.threads[i]? = some t)
    (hrejects : t.Obeys (WhenSettled key) (fun _ => True) (· ≠ none)) :
    w'.threads[i]? ≠ some (.done none) := by
  have hrun : Inv w' ∧ key ∈ w'.state.committed ∧ ∃ t, w'.threads[i]? = some t ∧
      t.Obeys (WhenSettled key) (fun _ => True) (· ≠ none) := by
    induction h with
    | refl => exact ⟨hinv, hkey, t, ht, hrejects⟩
    | tail _ hstep ih =>
      obtain ⟨hinv', hkey', t', ht', hobeys⟩ := ih
      exact ⟨hinv'.step hstep, hstep.committed hkey', hstep.obeys
        (fun e a s ha => whenSettled_of_handle ha hinv'.separate hkey') ht' hobeys⟩
  obtain ⟨-, -, t', ht', hobeys⟩ := hrun
  intro hdone
  obtain rfl := Option.some.inj (ht'.symm.trans hdone)
  exact hobeys rfl

theorem mem_of_mem_listFit {listSize : List Item → Int} {maxBytes : Int} {taken evs : List Item}
    {ev : Item} (h : ev ∈ Pool.listFit listSize maxBytes taken evs) : ev ∈ taken ∨ ev ∈ evs := by
  induction evs generalizing taken with
  | nil => exact .inl h
  | cons ev' rest ih =>
    rw [Pool.listFit] at h
    split_ifs at h
    · exact .inl h
    rcases ih h with h | h
    · rcases mem_append.1 h with h | h
      · exact .inl h
      · exact .inr (mem_cons.2 (.inl (mem_singleton.1 h)))
    · exact .inr (mem_cons_of_mem _ h)

/-- If all steps meet the condition, committed evidence is not pending again, not proposed, and not
accepted by a check that began after it was committed. -/
theorem committed_never_pending (p : Pool)
    (hp : p.Separate) (w : PoolWorld) (h : ReflTransGen CleanStep ⟨p, []⟩ w) :
    w.state.Separate ∧ (∀ listSize maxBytes, ∀ ev ∈ w.state.pendingEvidence listSize maxBytes,
      ev.key ∉ w.state.committed) ∧
    ∀ evList w', ReflTransGen CleanStep ⟨w.state, w.threads ++ [checkEvidence evList]⟩ w' →
      w'.threads[w.threads.length]? = some (.done none) →
      ∀ ev ∈ evList, ev.key ∉ w.state.committed := by
  have hinv : Inv w := Inv.run ⟨hp, fun _ _ t ht => absurd ht not_mem_nil⟩ h
  refine ⟨hinv.separate, ?_, ?_⟩
  · intro listSize maxBytes ev hev
    rw [Pool.pendingEvidence] at hev
    split_ifs at hev
    · exact absurd hev not_mem_nil
    · rcases mem_of_mem_listFit hev with hev | hev
      · exact absurd hev not_mem_nil
      · exact hinv.separate ev hev
  · intro evList w' hrun hdone ev hev hkey
    have hstart : CleanStep w ⟨w.state, w.threads ++ [checkEvidence evList]⟩ :=
      .spawn (.checkEvidence evList)
    exact (hinv.step hstart).rejects hrun hkey List.getElem?_concat_length
      (checkEvidenceFrom_rejects [] ⟨ev, hev, rfl⟩) hdone

section Runs

def emptyPool : Pool := ⟨[], [], 0, [], false⟩

def doubleVote : Item := ⟨5, [1], false⟩

/-- The pool once `doubleVote` is committed. -/
def committedPool : Pool := { emptyPool with committed := [doubleVote.key] }

theorem committed_reachable :
    ReflTransGen CleanStep ⟨emptyPool, []⟩ ⟨committedPool, [.done none]⟩ := by
  have hguarded : ∀ t ∈ [Thread.call (.setCommitted doubleVote) fun _ =>
      (do if ← pruneDue then (do let evs ← listPending; removeExpired evs; pure none)
          else pure none : Work (Option String))], Guarded doubleVote.key t := by
    intro t ht
    obtain rfl := mem_singleton.1 ht
    refine ⟨trivial, fun _ _ => .bind ⟨trivial, fun due _ => ?_⟩⟩
    refine .ite (fun _ => ?_) fun _ => trivial
    refine .bind ⟨trivial, fun evs _ => ?_⟩
    exact .seq (obeys_removeExpired evs) fun _ => trivial
  have h0 : ReflTransGen CleanStep ⟨emptyPool, []⟩ _ := .single (.spawn (.update [doubleVote]))
  have h1 := h0.tail (.run (a := ()) 0 rfl trivial ⟨rfl, rfl⟩)
  have h2 := h1.tail (.run 0 rfl trivial ⟨rfl, rfl⟩)
  have h3 := h2.tail (.run (a := ()) 0 rfl trivial rfl)
  have h4 := h3.tail (.run (a := ()) 0 rfl trivial rfl)
  have h5 := h4.tail (.run 0 rfl trivial ⟨rfl, rfl⟩)
  have h6 := h5.tail (.run (a := ()) 0 rfl ⟨rfl, hguarded⟩ rfl)
  have h7 := h6.tail (.run (a := false) 0 rfl trivial rfl)
  exact h7

/-- After that run the evidence is committed and not proposed. -/
theorem committed_never_pending_marked :
    doubleVote.key ∈ committedPool.committed ∧ committedPool.Separate ∧
    ∀ listSize maxBytes, ∀ ev ∈ committedPool.pendingEvidence listSize maxBytes,
      ev.key ∉ committedPool.committed :=
  have h := committed_never_pending emptyPool (nofun)
    ⟨committedPool, [.done none]⟩ committed_reachable
  ⟨mem_singleton.2 rfl, h.1, h.2.1⟩

/-- Steps without the condition: any thread may make its next call at any time. -/
abbrev AnyStep : PoolWorld → PoolWorld → Prop := World.Step Pool.handle Starts fun _ _ => True

/-- The reactor looks the evidence up, a block with it is checked and committed, and only then the
reactor adds it: it is pending again and proposed. -/
theorem committed_pending_again : ∃ w, ReflTransGen AnyStep ⟨emptyPool, []⟩ w ∧
      doubleVote.key ∈ w.state.committed ∧ doubleVote ∈ w.state.pending ∧
      w.state.pendingEvidence (fun _ => 0) (-1) = [doubleVote] ∧
      ∃ w', ReflTransGen AnyStep ⟨w.state, w.threads ++ [checkEvidence [doubleVote]]⟩ w' ∧
        w'.threads[w.threads.length]? = some (.done none) := by
  -- the reactor, up to the verification
  have h0 : ReflTransGen AnyStep ⟨emptyPool, []⟩ _ := .single (.spawn (.addEvidence doubleVote))
  have h1 := h0.tail (.run 0 rfl trivial ⟨rfl, rfl⟩)
  have h2 := h1.tail (.run 0 rfl trivial ⟨rfl, rfl⟩)
  -- the check of the block
  have h3 := h2.tail (.spawn (.checkEvidence [doubleVote]))
  have h4 := h3.tail (.run 1 rfl trivial ⟨rfl, rfl⟩)
  have h5 := h4.tail (.run 1 rfl trivial ⟨rfl, rfl⟩)
  have h6 := h5.tail (.run (a := (none : Option String)) 1 rfl trivial rfl)
  have h7 := h6.tail (.run 1 rfl trivial (handle_added _ _))
  -- the block is committed
  have h8 := h7.tail (.spawn (.update [doubleVote]))
  have h9 := h8.tail (.run (a := ()) 2 rfl trivial ⟨rfl, rfl⟩)
  have h10 := h9.tail (.run 2 rfl trivial ⟨rfl, rfl⟩)
  have h11 := h10.tail (.run (a := ()) 2 rfl trivial rfl)
  have h12 := h11.tail (.run (a := ()) 2 rfl trivial rfl)
  have h13 := h12.tail (.run 2 rfl trivial ⟨rfl, rfl⟩)
  have h14 := h13.tail (.run (a := ()) 2 rfl trivial rfl)
  have h15 := h14.tail (.run (a := ()) 2 rfl trivial rfl)
  have h16 := h15.tail (.run (a := false) 2 rfl trivial rfl)
  -- the reactor goes on
  have h17 := h16.tail (.run (a := (none : Option String)) 0 rfl trivial rfl)
  have h18 := h17.tail (.run 0 rfl trivial (handle_added _ _))
  refine ⟨_, h18, ?_, ?_, ?_, _, .single (.run 3 rfl trivial ⟨rfl, rfl⟩), ?_⟩
  · decide +kernel
  · decide +kernel
  · decide +kernel
  · rfl

end Runs

end CelestiaCore.EvidencePool
