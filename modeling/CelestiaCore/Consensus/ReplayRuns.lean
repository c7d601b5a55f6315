import CelestiaCore.Consensus.ReplayStart

/-!
# Recovery from crashes

A node that is stopped any number of times comes to the state of the run without a crash.
-/
namespace CelestiaCore.Replay
open Wire Program SM Durable Node List

variable {A : Type} {cfg : Config A}

/-! ## A commit and the handshakes after it -/

section Torn
variable {n t : Node A} {a a' : A} {s s' : State} {d : Decided} {response : FinalizeResponse}
  {now later : Time}

/-- A block that is committed on a node between blocks. -/
structure Commits (cfg : Config A) (now : Time) (n : Node A) (a : A) (s : State)
    (d : Decided) (a' : A)
    (response : FinalizeResponse) (s' : State) : Prop where
  synced : Synced cfg s a n
  valid : validateBlock cfg.crypto cfg.hs s d.block false now = .ok ()
  executes : Executes cfg n.store a s d a' response s'

variable (h : Commits cfg now n a s d a' response s')
include h

theorem Commits.applies :
    Applies cfg.crypto.toCrypto s d.blockID d.block.header response.toResponseFinalizeBlock s' :=
  applies_of_stateAfter h.synced.sound h.valid h.executes.state

theorem Commits.sound : s'.Sound cfg.crypto.toCrypto :=
  h.applies.sound h.synced.sound

theorem Commits.height_eq : d.height = s.initialHeight + n.blocks.length := by
  rw [← h.synced.nextHeight_eq]
  exact h.applies.height

theorem Commits.state_eq : s'.lastBlockHeight = d.height ∧ s'.initialHeight = s.initialHeight ∧
      s'.appHash = response.appHash := by
  obtain ⟨_, _, -, -, rfl⟩ := executed_eq_ok_iff.1 h.applies.executed
  exact ⟨rfl, rfl, rfl⟩

theorem Commits.height_pos : n.height < d.height ∧ 1 ≤ d.height := by
  have hpos := h.synced.sound.initial_pos
  have hd := h.height_eq
  refine ⟨?_, by omega⟩
  by_cases hnil : n.blocks = []
  · rw [height, hnil]
    simp
    omega
  · rw [h.synced.numbered.height_eq hnil]
    omega

omit h in
theorem commits_of_ok {p : State × ProxyApp A} (h : Synced cfg s a n)
    (hok : (finalizeCommit cfg.app cfg.crypto cfg.hs a s d now n).result = .ok p) :
    ∃ a' response, Commits cfg now n a s d a' response p.1 ∧ p.2 = .real a' := by
  have hvalid : validateBlock cfg.crypto cfg.hs s d.block false now = .ok () := by
    obtain ⟨_, hvalid, -⟩ := lift_bind_eq_ok hok
    exact mapError_eq_ok.1 hvalid
  have hacc := validateBlock_eq_ok hvalid
  have hheight : n.height < d.height := by
    have hnonneg := h.sound.lastBlockHeight
    have hpos := h.sound.initial_pos
    rw [h.height, Decided.height]
    by_cases hzero : s.lastBlockHeight = 0
    · rw [hacc.first hzero]
      omega
    · rw [hacc.height (by omega)]
      omega
  obtain ⟨-, a', response, hexec, hp⟩ := finalizeCommit_ok hheight hok
  exact ⟨a', response, ⟨h, hvalid, hexec⟩, hp⟩

theorem Commits.finalizeCommit_eq : finalizeCommit cfg.app cfg.crypto cfg.hs a s d now n =
      ⟨stages n d a' response s', .ok (s', .real a')⟩ :=
  Replay.finalizeCommit_eq h.valid h.height_pos.1 h.executes h.sound.storable

def committedNode (n : Node A) (d : Decided) (a' : A) (response : FinalizeResponse) (s' : State) :
    Node A :=
  ((responded d response (n.saveBlock d)).commitApp d a').withStore (n.store.saved s')

theorem Commits.synced_after : Synced cfg s' a' (committedNode n d a' response s') := by
  obtain ⟨hlast, hinitial, hhash⟩ := h.state_eq
  have hpos := h.height_pos.2
  obtain ⟨info, -, hfinal⟩ := h.executes.finalize
  constructor
  case loads => exact h.sound.storable.load_saved (by omega) n.store
  case sound => exact h.sound
  case initial => rw [hinitial, h.synced.initial]
  case numbered =>
    rw [hinitial]
    exact h.synced.numbered.append h.height_eq
  case height =>
    rw [hlast]
    exact height_append n d rfl
  case appHeight => exact hlast.symm
  case committed =>
    have hcommitted := h.synced.committed
    simp [committedNode, withStore, commitApp, responded, saveFinalizeBlockResponse,
      saveTxInfo, saveBlock, hcommitted]
  case memory =>
    intro _
    exact ⟨rfl, by rw [cfg.app.appHash_finalizeBlock _ _ _ _ _ hfinal, hhash]⟩
  case start => intro hzero; omega

/-- Before the first block a crash is survived if the initial height is 1 and the state has an
application version. -/
def Covered (s : State) : Prop := 1 ≤ s.lastBlockHeight ∨ s.initialHeight = 1 ∧ s.versionApp ≠ 0

theorem Commits.next_height (hcov : Covered s) : d.height = s.lastBlockHeight + 1 := by
  have hheight : d.height = s.nextHeight := h.applies.height
  rw [hheight, State.nextHeight]
  rcases hcov with hone | ⟨hone, -⟩
  · rw [if_neg (by omega)]
  · split_ifs <;> omega

theorem Commits.partway (hblocks : t.blocks = n.blocks ++ [d]) :
    t.base = s.initialHeight ∧ t.height = d.height ∧ t.loadBlock d.height = .ok d := by
  have hnumbered := h.synced.numbered.append h.height_eq
  rw [← hblocks] at hnumbered
  have hne : t.blocks ≠ [] := by simp [hblocks]
  exact ⟨hnumbered.base_eq hne, height_append n d hblocks,
    h.synced.numbered.loadBlock_last h.height_eq hblocks⟩

theorem Commits.replayBlock_eq (hle : now ≤ later) (hblocks : t.blocks = n.blocks ++ [d])
    (proxyApp : ProxyApp A) : replayBlock cfg proxyApp s d.height later t =
      applyBlock cfg.app cfg.crypto proxyApp s d t := by
  have hcheck : (validateBlock cfg.crypto cfg.hs s d.block false later).mapError
      (fun e => s!"invalid block: {e}") = .ok () := by
    rw [validateBlock_later h.valid hle]
    rfl
  rw [replayBlock, read_bind_apply, lift_bind_apply (h.partway hblocks).2.2, applyBlockChecked,
    lift_bind_apply hcheck]

/-- The application has not committed the block: it is executed on the real application. -/
theorem Commits.handshake_real (hcov : Covered s)
    (hle : now ≤ later) (hblocks : t.blocks = n.blocks ++ [d]) (hstore : t.store = n.store)
    (happ : t.app = n.app) : ∃ before, (∀ u ∈ before, u = t) ∧ handshake cfg later t =
      ⟨before ++ [t.saveTxInfo d response, responded d response t,
        (responded d response t).commitApp d a',
        ((responded d response t).commitApp d a').withStore (n.store.saved s')],
        .ok (s', .real a')⟩ := by
  obtain ⟨hbase, hheight, -⟩ := h.partway hblocks
  have hnext := h.next_height hcov
  have hpos := h.height_pos.2
  have hexec : Executes cfg t.store a s d a' response s' := hstore ▸ h.executes
  have hinit : s.lastBlockHeight ≠ 0 → s.initialHeight ≤ s.lastBlockHeight := by
    intro hne
    have hnum := h.synced.numbered.height_eq (h.synced.blocks_ne_nil hne)
    have hlen := length_pos_iff.2 (h.synced.blocks_ne_nil hne)
    rw [h.synced.height] at hnum
    omega
  have hcheck : checkHeights t s s.lastBlockHeight = .ok () := by
    apply checkHeights_eq_ok hbase hinit <;> omega
  apply h.synced.handshake_of_sync hstore happ
  · rw [syncBlocks, read_bind_apply, if_neg (by omega), lift_bind_apply hcheck, if_neg (by omega),
      if_neg (by omega), if_pos rfl, hheight, bind_apply_of_ok ((h.replayBlock_eq hle hblocks
        (.real a)).trans (applyBlock_real hexec h.sound.storable)), hstore]
    rfl
  · have hlast := h.state_eq.1
    exact h.sound.storable.load_saved (by omega) n.store

omit h in
theorem mockResponse_eq {response : FinalizeResponse} {appHash : Bytes}
    (h : appHash = response.appHash) : mockResponse appHash response = response := by
  unfold mockResponse
  split_ifs with hnil
  · rw [h]
  · rfl

theorem Commits.handshake_mock (hcov : Covered s)
    (hle : now ≤ later) (hblocks : t.blocks = n.blocks ++ [d])
    (hstore : t.store = n.store) (hresponse : t.lastResponse = some (d.height, response))
    (happ : t.app.height = d.height) (hstate : t.app.state = a') :
    handshake cfg later t = ⟨[t.saveTxInfo d response, responded d response t,
        (responded d response t).withStore (n.store.saved s')], .ok (s', .real a')⟩ := by
  obtain ⟨hbase, hheight, -⟩ := h.partway hblocks
  have hnext := h.next_height hcov
  have hpos := h.height_pos.2
  have hd := h.height_eq
  obtain ⟨info, -, hfinalize⟩ := h.executes.finalize
  have hhash := cfg.app.appHash_finalizeBlock _ _ _ _ _ hfinalize
  have hloads : t.store.load cfg.crypto.toCrypto = .ok (some s) := by rw [hstore, h.synced.loads]
  have hexec : Executes cfg t.store a s d a' response s' := hstore ▸ h.executes
  have hcheck : checkHeights t s d.height = .ok () := by
    apply checkHeights_eq_ok hbase <;> omega
  have hlast : t.loadLastFinalizeBlockResponse d.height = .ok response := by
    simp [loadLastFinalizeBlockResponse, hresponse]
  have hversion : s.lastBlockHeight ≠ 0 ∨ s.versionApp ≠ 0 := by
    rcases hcov with hone | ⟨-, hversion⟩
    · exact Or.inl (by omega)
    · exact Or.inr hversion
  apply handshake_eq (loadState_eq hloads) (by omega)
  · rw [replayAll, read_bind_apply, if_neg (by omega), withAppVersion_eq hversion, happ, hstate,
      syncBlocks, read_bind_apply, if_neg (by omega), lift_bind_apply hcheck,
      if_neg (by omega), if_neg (by omega), if_neg (by omega), hheight, if_pos rfl,
      lift_bind_apply hlast, mockResponse_eq hhash,
      bind_apply_of_ok ((h.replayBlock_eq hle hblocks (.mock response)).trans
        (applyBlock_mock hexec h.sound.storable)), hstore]
    rfl
  · have hlast' := h.state_eq.1
    exact h.sound.storable.load_saved (by omega) n.store

def Finishes (cfg : Config A) (later : Time) (n : Node A) (d : Decided) (a' : A)
    (response : FinalizeResponse) (s' : State) (t : Node A) : Prop :=
  ∃ trail, handshake cfg later t = ⟨trail, .ok (s', .real a')⟩ ∧
    (∀ u ∈ trail, u ∈ stages n d a' response s') ∧
    trail.getLastD t = committedNode n d a' response s'

theorem Commits.finishes_real (hcov : Covered s)
    (hle : now ≤ later) (ht : t ∈ stages n d a' response s') (hblocks : t.blocks = n.blocks ++ [d])
    (hstore : t.store = n.store) (happ : t.app = n.app)
    (hsave : t.saveTxInfo d response ∈ stages n d a' response s')
    (hrespond : responded d response t = responded d response (n.saveBlock d)) :
    Finishes cfg later n d a' response s' t := by
  obtain ⟨before, hbefore, heq⟩ := h.handshake_real hcov hle hblocks hstore happ
  rw [hrespond] at heq
  refine ⟨_, heq, ?_, ?_⟩
  · intro u hu
    rcases mem_append.1 hu with hu | hu
    · rw [hbefore u hu]
      exact ht
    · rcases mem_cons.1 hu with rfl | hu
      · exact hsave
      · simp only [stages, mem_cons] at hu ⊢
        exact Or.inr (Or.inr hu)
  · rw [getLastD_append]
    rfl

theorem Commits.finishes (hcov : Covered s) (hle : now ≤ later)
    (ht : t ∈ stages n d a' response s') : Finishes cfg later n d a' response s' t := by
  have hmem := ht
  simp only [stages, mem_cons, not_mem_nil, or_false] at ht
  rcases ht with rfl | rfl | rfl | rfl | rfl
  · -- only the block was saved
    exact h.finishes_real hcov hle hmem rfl rfl rfl (by simp [stages]) rfl
  · exact h.finishes_real hcov hle hmem rfl rfl rfl (by simp [stages, saveTxInfo])
      (by simp [responded, saveTxInfo])
  · exact h.finishes_real hcov hle hmem rfl rfl rfl
      (by simp [stages, responded, saveTxInfo, saveFinalizeBlockResponse])
      (by simp [responded, saveTxInfo, saveFinalizeBlockResponse])
  · -- the application has committed
    have hmock := h.handshake_mock
      (t := (responded d response (n.saveBlock d)).commitApp d a') hcov hle
      rfl rfl rfl rfl rfl
    have hsame : ((responded d response (n.saveBlock d)).commitApp d a').saveTxInfo d response =
        (responded d response (n.saveBlock d)).commitApp d a' ∧
        responded d response ((responded d response (n.saveBlock d)).commitApp d a') =
          (responded d response (n.saveBlock d)).commitApp d a' := by
      simp [responded, saveTxInfo, saveFinalizeBlockResponse, commitApp]
    rw [hsame.1, hsame.2] at hmock
    refine ⟨_, hmock, ?_, rfl⟩
    simp [stages]
  · -- nothing is left to do
    obtain ⟨trail, heq, hsame⟩ := h.synced_after.handshake_eq later
    have hfinal := h.synced_after.final_handshake later
    rw [final, heq] at hfinal
    refine ⟨trail, heq, fun u hu => ?_, hfinal⟩
    rw [hsame u hu]
    exact hmem

end Torn

/-! ## Runs -/

section Runs
variable {n n' : Node A} {a a' : A} {s s' : State} {d : Decided} {t now : Time}

/-- The nodes between the blocks of a run without a crash, with the time, the state and the
application in memory. -/
inductive CrashFree (cfg : Config A) : Time → State → A → Node A → Prop where
  | start {now : Time} {s : State} {a : A}
      (hok : (handshake cfg now (freshNode cfg)).result = .ok (s, .real a)) :
    CrashFree cfg now s a ((handshake cfg now).final (freshNode cfg))
  | commit {t now : Time} {s s' : State} {a a' : A} {n : Node A} {d : Decided}
      (hrun : CrashFree cfg t s a n) (hle : t ≤ now)
      (hok : (finalizeCommit cfg.app cfg.crypto cfg.hs a s d now n).result = .ok (s', .real a')) :
    CrashFree cfg now s' a' ((finalizeCommit cfg.app cfg.crypto cfg.hs a s d now).final n)

/-- A node is stopped, or it runs with a state and an application in memory. -/
inductive Mode (A : Type) where
  | stopped
  | running (s : State) (a : A)

/-- The runs of a node that may be stopped at any write of a handshake or a commit; the clock does
not go back, and interrupted commits are covered. -/
inductive Run (cfg : Config A) : Time → Mode A → Node A → Prop where
  | fresh (t : Time) : Run cfg t .stopped (freshNode cfg)
  | interruptedHandshake {t now : Time} {mode : Mode A} {n n' : Node A} (hrun : Run cfg t mode n)
      (hle : t ≤ now) (hcrash : Durable.Crash (handshake cfg now) n n') : Run cfg now .stopped n'
  | handshake {t now : Time} {mode : Mode A} {n : Node A} {s : State} {a : A}
      (hrun : Run cfg t mode n) (hle : t ≤ now)
      (hok : (handshake cfg now n).result = .ok (s, .real a)) :
    Run cfg now (.running s a) ((handshake cfg now).final n)
  | interruptedCommit {t now : Time} {s : State} {a : A} {n n' : Node A} {d : Decided}
      {p : State × ProxyApp A} (hrun : Run cfg t (.running s a) n) (hle : t ≤ now)
        (hcov : Covered s)
      (hok : (finalizeCommit cfg.app cfg.crypto cfg.hs a s d now n).result = .ok p)
      (hcrash : Durable.Crash (finalizeCommit cfg.app cfg.crypto cfg.hs a s d now) n n') :
    Run cfg now .stopped n'
  | commit {t now : Time} {s s' : State} {a a' : A} {n : Node A} {d : Decided}
      (hrun : Run cfg t (.running s a) n) (hle : t ≤ now)
      (hok : (finalizeCommit cfg.app cfg.crypto cfg.hs a s d now n).result = .ok (s', .real a')) :
    Run cfg now (.running s' a') ((finalizeCommit cfg.app cfg.crypto cfg.hs a s d now).final n)

/-- The node can be started: the application answers `InitChain` as it should. -/
structure Startable (cfg : Config A) : Prop where
  initial : 1 ≤ cfg.genDoc.initialHeight
  keys : ∀ v ∈ cfg.genDoc.validators, HasKeySize v.1
  starts : ∃ now p, (handshake cfg now (freshNode cfg)).result = .ok p

theorem Startable.handshake_fresh (hstart : Startable cfg) :
    ∃ s a, Begun cfg a s ∧ Genesis cfg.crypto.toCrypto s ∧
      s.initialHeight = cfg.genDoc.initialHeight ∧
      ∀ later, handshake cfg later (freshNode cfg) = ⟨[begunNode cfg s], .ok (s, .real a)⟩ := by
  obtain ⟨now, p, hp⟩ := hstart.starts
  obtain ⟨a, ha, hbegun, hgenesis, hinitial, hall⟩ := begun_of_start hstart.initial hstart.keys hp
  refine ⟨p.1, a, hbegun, hgenesis, hinitial, fun later => ?_⟩
  rw [hall later, ← ha]

theorem CrashFree.synced (hstart : Startable cfg) (h : CrashFree cfg t s a n) :
    Synced cfg s a n := by
  induction h with
  | @start now s a hok =>
    obtain ⟨s₁, a₁, hbegun, hgenesis, hinitial, hall⟩ := hstart.handshake_fresh
    rw [hall now] at hok
    obtain ⟨rfl, hreal⟩ := Prod.mk.inj (Except.ok.inj hok)
    obtain rfl := ProxyApp.real.inj hreal
    rw [final, hall now]
    exact .begun hbegun hgenesis hinitial
  | commit hrun hle hok ih =>
    obtain ⟨a₁, response, hcommits, hreal⟩ := commits_of_ok ih hok
    obtain rfl := ProxyApp.real.inj hreal
    rw [final, hcommits.finalizeCommit_eq]
    exact hcommits.synced_after

/-- The nodes that a run can be stopped at, before a time. -/
inductive Stoppable (cfg : Config A) (t : Time) : Node A → Prop where
  | fresh : Stoppable cfg t (freshNode cfg)
  | between {t₀ : Time} {s : State} {a : A} {n : Node A} (hle : t₀ ≤ t)
    (h : CrashFree cfg t₀ s a n) :
    Stoppable cfg t n
  | torn {t₀ now : Time} {s s' : State} {a a' : A} {n n' : Node A} {d : Decided}
      {response : FinalizeResponse} (h : CrashFree cfg t₀ s a n) (hle : t₀ ≤ now) (hle' : now ≤ t)
      (hcommits : Commits cfg now n a s d a' response s') (hcov : Covered s)
      (hmem : n' ∈ stages n d a' response s') : Stoppable cfg t n'

theorem Stoppable.later (h : Stoppable cfg t n) (hle : t ≤ now) : Stoppable cfg now n := by
  cases h with
  | fresh => exact .fresh
  | between hle₀ h => exact .between (le_trans hle₀ hle) h
  | torn h hle₀ hle' hcommits hcov hmem => exact .torn h hle₀ (le_trans hle' hle) hcommits hcov hmem

structure Recovers (cfg : Config A) (now : Time) (n : Node A) (s : State) (a : A) : Prop where
  result : (handshake cfg now n).result = .ok (s, .real a)
  crashFree : ∃ t ≤ now, CrashFree cfg t s a ((handshake cfg now).final n)
  trail : ∀ u ∈ (handshake cfg now n).trail, Stoppable cfg now u
  blocks : ((handshake cfg now).final n).blocks = n.blocks

theorem blocks_of_mem_stages {response : FinalizeResponse} (h : n' ∈ stages n d a' response s') :
    n'.blocks = n.blocks ++ [d] := by
  simp only [stages, mem_cons, not_mem_nil, or_false] at h
  rcases h with rfl | rfl | rfl | rfl | rfl <;> rfl

theorem Stoppable.recovers (hstart : Startable cfg) (h : Stoppable cfg t n) (hle : t ≤ now) :
    ∃ s a, Recovers cfg now n s a := by
  cases h with
  | fresh =>
    obtain ⟨s, a, -, -, -, hall⟩ := hstart.handshake_fresh
    have hok : (handshake cfg now (freshNode cfg)).result = .ok (s, .real a) := by rw [hall now]
    have hfree := CrashFree.start hok
    have hfinal : (handshake cfg now).final (freshNode cfg) = begunNode cfg s := by
      rw [final, hall now]
      rfl
    refine ⟨s, a, hok, ⟨now, le_refl now, hfree⟩, ?_, by rw [hfinal]; rfl⟩
    rw [hall now]
    intro u hu
    obtain rfl := mem_singleton.1 hu
    exact .between (le_refl now) (hfinal ▸ hfree)
  | @between t₀ s a _ hle₀ hfree =>
    obtain ⟨trail, heq, hsame⟩ := (hfree.synced hstart).handshake_eq now
    have hfinal := (hfree.synced hstart).final_handshake now
    refine ⟨s, a, by rw [heq], ⟨t₀, le_trans hle₀ hle, hfinal.symm ▸ hfree⟩, ?_, by rw [hfinal]⟩
    rw [heq]
    intro u hu
    rw [hsame u hu]
    exact .between (le_trans hle₀ hle) hfree
  | @torn t₀ at₀ s s' a a' n₀ _ d response hfree hle₀ hle' hcommits hcov hmem =>
    obtain ⟨trail, heq, hstages, hlast⟩ := hcommits.finishes hcov (le_trans hle' hle) hmem
    have hfinal : (handshake cfg now).final n = committedNode n₀ d a' response s' := by
      rw [final, heq]
      exact hlast
    have hok : (finalizeCommit cfg.app cfg.crypto cfg.hs a s d at₀ n₀).result =
        .ok (s', .real a') := by rw [hcommits.finalizeCommit_eq]
    have hnext := CrashFree.commit hfree hle₀ hok
    have hcommitted : (finalizeCommit cfg.app cfg.crypto cfg.hs a s d at₀).final n₀ =
        committedNode n₀ d a' response s' := by
      rw [final, hcommits.finalizeCommit_eq]
      rfl
    rw [hcommitted] at hnext
    refine ⟨s', a', by rw [heq], ⟨at₀, le_trans hle' hle, hfinal.symm ▸ hnext⟩, ?_, ?_⟩
    · rw [heq]
      intro u hu
      exact .torn hfree hle₀ (le_trans hle' hle) hcommits hcov (hstages u hu)
    · rw [hfinal, blocks_of_mem_stages hmem]
      rfl

def Inv (cfg : Config A) (t : Time) (n : Node A) : Mode A → Prop
  | .stopped => Stoppable cfg t n
  | .running s a => ∃ t₀ ≤ t, CrashFree cfg t₀ s a n

theorem Inv.stoppable {mode : Mode A} (h : Inv cfg t n mode) : Stoppable cfg t n := by
  cases mode with
  | stopped => exact h
  | running =>
    obtain ⟨t₀, hle, hfree⟩ := h
    exact .between hle hfree

theorem Run.inv (hstart : Startable cfg) {mode : Mode A} (h : Run cfg t mode n) :
    Inv cfg t n mode := by
  induction h with
  | fresh => exact Stoppable.fresh
  | interruptedHandshake hrun hle hcrash ih =>
    obtain ⟨s, a, hrec⟩ := ih.stoppable.recovers hstart hle
    rcases hcrash with rfl | hmem
    · exact ih.stoppable.later hle
    · exact hrec.trail _ hmem
  | handshake hrun hle hok ih =>
    obtain ⟨s, a, hrec⟩ := ih.stoppable.recovers hstart hle
    rw [hrec.result] at hok
    obtain ⟨rfl, hreal⟩ := Prod.mk.inj (Except.ok.inj hok)
    obtain rfl := ProxyApp.real.inj hreal
    exact hrec.crashFree
  | interruptedCommit hrun hle hcov hok hcrash ih =>
    obtain ⟨t₀, hle₀, hfree⟩ := ih
    obtain ⟨a', response, hcommits, -⟩ := commits_of_ok (hfree.synced hstart) hok
    rcases hcrash with rfl | hmem
    · exact .between (le_trans hle₀ hle) hfree
    · rw [hcommits.finalizeCommit_eq] at hmem
      exact .torn hfree (le_trans hle₀ hle) (le_refl _) hcommits hcov hmem
  | commit hrun hle hok ih =>
    obtain ⟨t₀, hle₀, hfree⟩ := ih
    exact ⟨_, le_refl _, .commit hfree (le_trans hle₀ hle) hok⟩

/-- Wherever a node is stopped, the next handshake returns, and the node is one of a run without a
crash with the same blocks, each committed once, in order. -/
theorem recovery_applies_once (cfg : Config A) (hstart : Startable cfg) {t now : Time}
    {mode : Mode A}
    {n : Node A} (hrun : Run cfg t mode n) (hle : t ≤ now) :
    ∃ s a n', (handshake cfg now n).result = .ok (s, .real a) ∧ (handshake cfg now).final n = n' ∧
      n'.blocks = n.blocks ∧ (∃ t' ≤ now, CrashFree cfg t' s a n') ∧
      n'.store.load cfg.crypto.toCrypto = .ok (some s) ∧
      n'.height = s.lastBlockHeight ∧ n'.app.height = s.lastBlockHeight ∧
      n'.app.committed = n'.blocks ∧ Numbered cfg.genDoc.initialHeight n'.blocks := by
  obtain ⟨s, a, hrec⟩ := (hrun.inv hstart).stoppable.recovers hstart hle
  obtain ⟨t', ht', hfree⟩ := hrec.crashFree
  have hsynced := hfree.synced hstart
  exact ⟨s, a, _, hrec.result, rfl, hrec.blocks, ⟨t', ht', hfree⟩, hsynced.loads, hsynced.height,
    hsynced.appHeight, hsynced.committed, hsynced.initial ▸ hsynced.numbered⟩

end Runs

/-! An application that counts blocks, on a chain with one block. -/

def countingApp (consensusParams : Option ParamUpdates) : Application Nat where
  fresh := 0
  initChain := fun _ => .ok (0, ⟨consensusParams, [], [], .zero⟩)
  finalizeBlock := fun blocks _ _ => .ok (blocks + 1, ⟨⟨[], none, [], [], .zero⟩, []⟩)
  appVersion := fun _ => 1
  appHash := fun _ => []
  appHash_finalizeBlock := by
    intro a block info a' response h
    obtain ⟨-, rfl⟩ := Prod.mk.inj (Except.ok.inj h)
    rfl

def sampleConfig (initialHeight : Int) (consensusParams : Option ParamUpdates) : Config Nat :=
  ⟨acceptingCrypto.toBatchCrypto, constantHashes, someHash,
    { unevenDoc with initialHeight := initialHeight }, countingApp consensusParams⟩

def firstBlock (height : Int64) (versionApp : UInt64) : Decided :=
  ⟨⟨⟨{ headerAt height 0 default with lastResultsHash := someHash, versionApp := versionApp }, [],
    ⟨0, 0, default, []⟩⟩, [], none⟩, someBlockID⟩

def startedState (cfg : Config Nat) : State :=
  match (handshake cfg 0 (freshNode cfg)).result with
  | .ok p => p.1
  | .error _ => .empty

def firstCommit (cfg : Config Nat) (d : Decided) : Outcome (Node Nat) (State × ProxyApp Nat) :=
  finalizeCommit cfg.app cfg.crypto cfg.hs 0 (startedState cfg) d 0
    ((handshake cfg 0).final (freshNode cfg))

/-- How the handshakes end after a crash at each of the writes of the commit. -/
def restarts (cfg : Config Nat) (d : Decided) : List (Except String Int) :=
  (firstCommit cfg d).trail.map fun torn =>
    (handshake cfg 0 torn).result.map fun p => p.1.lastBlockHeight

/-- With an initial height of 5, or an application version of 0, a node that is stopped while it
commits the first block is never started again. -/
theorem first_block_is_not_recovered :
    (handshake (sampleConfig 5 none) 0 (freshNode (sampleConfig 5 none))).result =
        .ok (startedState (sampleConfig 5 none), .real 0) ∧
      (firstCommit (sampleConfig 5 none) (firstBlock 5 1)).result.toOption.isSome = true ∧
      restarts (sampleConfig 5 none) (firstBlock 5 1) =
        [.error "StoreBlockHeight (5) > StateBlockHeight + 1 (1)",
          .error "StoreBlockHeight (5) > StateBlockHeight + 1 (1)",
          .error "StoreBlockHeight (5) > StateBlockHeight + 1 (1)",
          .error "StoreBlockHeight (5) > StateBlockHeight + 1 (1)", .ok 5] ∧
      (firstCommit (sampleConfig 1 (some ⟨none, none, none, none, none⟩))
        (firstBlock 1 0)).result.toOption.isSome = true ∧
      restarts (sampleConfig 1 (some ⟨none, none, none, none, none⟩)) (firstBlock 1 0) =
        [.ok 1, .ok 1, .ok 1, .error "invalid block: wrong Block.Header.Version", .ok 1] := by
  decide +kernel

/-- With an initial height of 1, the handshake after a crash right after the block was saved. -/
theorem recovery_applies_once_first :
    let torn := (firstCommit (sampleConfig 1 none) (firstBlock 1 1)).trail.headD
      (freshNode (sampleConfig 1 none))
    ∃ (s : State) (a : Nat) (n' : Node Nat),
      (handshake (sampleConfig 1 none) 0 torn).result = .ok (s, .real a) ∧
      (handshake (sampleConfig 1 none) 0).final torn = n' ∧
      n'.height = s.lastBlockHeight ∧ n'.app.height = s.lastBlockHeight ∧
      n'.app.committed = n'.blocks ∧ Numbered 1 n'.blocks := by
  have hhandshake : (handshake (sampleConfig 1 none) 0 (freshNode (sampleConfig 1 none))).result =
      .ok (startedState (sampleConfig 1 none), .real 0) := by decide +kernel
  have hstart : Startable (sampleConfig 1 none) := by
    refine ⟨by decide, ?_, ⟨0, _, hhandshake⟩⟩
    intro v hv
    have hall : ∀ v ∈ (sampleConfig 1 none).genDoc.validators,
        v.1.bytes.length = v.1.type.pubKeySize := by decide +kernel
    exact hall v hv
  obtain ⟨p, hp, -⟩ : ∃ p, (firstCommit (sampleConfig 1 none) (firstBlock 1 1)).result = .ok p ∧
      True := exists_ok (by decide +kernel)
  have hcov : Covered (startedState (sampleConfig 1 none)) := Or.inr (by decide +kernel)
  have hmem : (firstCommit (sampleConfig 1 none) (firstBlock 1 1)).trail.headD
      (freshNode (sampleConfig 1 none)) ∈
      (firstCommit (sampleConfig 1 none) (firstBlock 1 1)).trail := by
    have hlen : (firstCommit (sampleConfig 1 none) (firstBlock 1 1)).trail.length = 5 := by
      decide +kernel
    obtain ⟨torn, rest, htrail⟩ := exists_of_length_succ _ hlen
    rw [htrail]
    exact mem_cons_self
  have hrun := Run.interruptedCommit (.handshake (.fresh 0) (le_refl 0) hhandshake)
    (le_refl 0) hcov hp
    (Or.inr hmem)
  obtain ⟨s, a, n', hresult, hfinal, -, -, -, hheight, happ, hcommitted, hnumbered⟩ :=
    recovery_applies_once (sampleConfig 1 none) hstart hrun (le_refl 0)
  exact ⟨s, a, n', hresult, hfinal, hheight, happ, hcommitted, hnumbered⟩

end CelestiaCore.Replay
