import CelestiaCore.Consensus.ReplaySteps
import CelestiaCore.State.HeaderChain

/-!
# Nodes between blocks

The start of a fresh node, and the handshake of a node whose stores are at one height.
-/
namespace CelestiaCore.Replay
open Wire Program SM List StateStore
open Durable (lift_bind_apply single_bind_apply read_bind_apply lift_bind_eq_ok bind_eq_ok final)

variable {A : Type} {cfg : Config A}

/-! ## Heights of the block store -/

section Heights
variable {initial : Int} {n : Node A} {d : Decided}

def Numbered (initial : Int) (blocks : List Decided) : Prop :=
  ∀ (i : Nat) d, blocks[i]? = some d → d.height = initial + i

theorem Numbered.append {blocks : List Decided} (h : Numbered initial blocks)
    (hd : d.height = initial + blocks.length) : Numbered initial (blocks ++ [d]) := by
  intro i e he
  rcases lt_trichotomy i blocks.length with hi | rfl | hi
  · rw [getElem?_append_left hi] at he
    exact h i e he
  · rw [getElem?_concat_length] at he
    cases he
    exact hd
  · rw [getElem?_eq_none (by simp; omega)] at he
    cases he

theorem Numbered.base_eq (h : Numbered initial n.blocks) (hne : n.blocks ≠ []) :
    n.base = initial := by
  obtain ⟨d, rest, hblocks⟩ := exists_cons_of_ne_nil hne
  have hd := h 0 d (by rw [hblocks]; rfl)
  simpa [Node.base, hblocks] using hd

theorem Numbered.height_eq (h : Numbered initial n.blocks) (hne : n.blocks ≠ []) :
    n.height = initial + n.blocks.length - 1 := by
  have hpos := length_pos_iff.2 hne
  obtain ⟨d, hd⟩ : ∃ d, n.blocks[n.blocks.length - 1]? = some d :=
    ⟨_, getElem?_eq_getElem (by omega)⟩
  have hheight := h _ d hd
  have hcast : ((n.blocks.length - 1 : ℕ) : ℤ) = (n.blocks.length : ℤ) - 1 := by omega
  rw [Node.height, getLast?_eq_getElem?, hd]
  simp only [Option.map_some, Option.getD_some]
  omega

theorem Numbered.loadBlock_last (h : Numbered initial n.blocks)
    (hd : d.height = initial + n.blocks.length) {n' : Node A} (hn' : n'.blocks = n.blocks ++ [d]) :
    n'.loadBlock d.height = .ok d := by
  have hnone : n.blocks.find? (·.height = d.height) = none := by
    rw [find?_eq_none]
    intro e he
    obtain ⟨i, hi, rfl⟩ := getElem_of_mem he
    have hheight := h i _ (getElem?_eq_getElem hi)
    simp only [decide_eq_true_eq]
    omega
  rw [Node.loadBlock, hn', find?_append, hnone]
  simp

theorem Node.height_append (n : Node A) (d : Decided) {n' : Node A}
    (hn' : n'.blocks = n.blocks ++ [d]) : n'.height = d.height := by
  simp [Node.height, hn']

end Heights

/-! ## The state before the first block -/

section Begin
variable {n : Node A} {a : A} {s : State}

theorem saved_saved (s : State) (store : StateStore) : (store.saved s).saved s = store.saved s := by
  unfold saved
  by_cases hzero : s.lastBlockHeight = 0
  · simp only [if_pos hzero, Function.update_idem]
    congr 1
    funext h
    simp only [Function.update_apply]
    split_ifs <;> rfl
  · simp only [if_neg hzero, Function.update_idem]

theorem load_saved_genesis {crypto : Crypto} (hs : s.Storable crypto)
    (hzero : s.lastBlockHeight = 0)
    (hlast : s.lastValidators = .empty) (store : StateStore) :
    (store.saved s).load crypto = .ok (some s) := by
  have hv := hs.validators
  have hn := hs.nextValidators
  have hone : ¬1 ≤ s.lastBlockHeight := by omega
  rw [CachedValidatorSet.Loaded] at hv hn
  simp only [load, saved, State.fromProto, State.stored, if_neg hone, hv, hn,
    bind, Except.bind, Except.map]
  rw [← hlast]

/-- The state before the first block and the application that `InitChain` has made. Another
`InitChain` leaves the state as it is. -/
structure Begun (cfg : Config A) (a : A) (s : State) : Prop where
  zero : s.lastBlockHeight = 0
  lastValidators : s.lastValidators = .empty
  request : ∃ vals, (CachedValidatorSet.newValidatorSet (cfg.genDoc.validators.map fun val =>
    newValidator cfg.crypto.toCrypto val.1 val.2)).mapError
      (fun _ => "cannot create validator set") = .ok vals
  again : ∃ res, cfg.app.initChain cfg.genDoc = .ok (a, res) ∧ res.appHash = s.appHash ∧
    ∀ version, initialState cfg res (withAppVersion version s) = .ok s

theorem withAppVersion_lastBlockHeight (version : UInt64) (s : State) :
    (withAppVersion version s).lastBlockHeight = s.lastBlockHeight := by
  unfold withAppVersion
  split_ifs <;> rfl

variable {res : ResponseInitChain} {g : State}

theorem initChain_eq {vals : CachedValidatorSet}
    (hvals : (CachedValidatorSet.newValidatorSet (cfg.genDoc.validators.map fun val =>
      newValidator cfg.crypto.toCrypto val.1 val.2)).mapError
        (fun _ => "cannot create validator set") = .ok vals)
    (hres : cfg.app.initChain cfg.genDoc = .ok (a, res)) (hzero : g.lastBlockHeight = 0)
    (hstate : initialState cfg res g = .ok s) (hs : s.Storable cfg.crypto.toCrypto) (n : Node A) :
    initChain cfg g n = ⟨[n.withStore (n.store.saved s)], .ok (a, res.appHash, s)⟩ := by
  rw [initChain, lift_bind_apply hvals, lift_bind_apply hres, if_pos hzero,
    lift_bind_apply hstate, single_bind_apply (onStore_save hs n)]
  rfl

theorem Begun.initChain_eq (h : Begun cfg a s) (hs : s.Storable cfg.crypto.toCrypto)
    (hstore : n.store.saved s = n.store) (version : UInt64) :
    initChain cfg (withAppVersion version s) n = ⟨[n], .ok (a, s.appHash, s)⟩ := by
  obtain ⟨vals, hvals⟩ := h.request
  obtain ⟨res, hres, hhash, hagain⟩ := h.again
  have hzero : (withAppVersion version s).lastBlockHeight = 0 := by
    rw [withAppVersion_lastBlockHeight, h.zero]
  rw [Replay.initChain_eq hvals hres hzero (hagain version) hs, hstore, hhash]
  rfl

theorem syncBlocks_empty {appHash : Bytes} {height : Int} {now : Time} (hheight : n.height = 0)
    (hhash : appHash = s.appHash) :
    syncBlocks cfg a appHash s height now n = ⟨[], .ok (appHash, .real a)⟩ := by
  have hassert : assertAppHashEqualsOneFromState appHash s = .ok () := by
    rw [assertAppHashEqualsOneFromState, if_pos hhash]
  rw [syncBlocks, read_bind_apply, if_pos hheight, lift_bind_apply hassert]
  rfl

theorem handshake_eq {st : State} {now : Time} {trail : List (Node A)} {hash : Bytes}
    {proxyApp : ProxyApp A} (hload : loadState cfg n = .ok st) (hnonneg : 0 ≤ n.app.height)
    (hreplay : replayAll cfg (withAppVersion (cfg.app.appVersion n.app.state) st)
      (cfg.app.appHash n.app.state) n.app.height now n = ⟨trail, .ok (hash, proxyApp)⟩)
    (hfinal : (trail.getLastD n).store.load cfg.crypto.toCrypto = .ok (some s)) :
    handshake cfg now n = ⟨trail, .ok (s, proxyApp)⟩ := by
  rw [handshake, read_bind_apply, lift_bind_apply hload, if_neg (not_lt.2 hnonneg),
    Durable.bind_apply_of_ok hreplay, read_bind_apply, lift_bind_apply hfinal]
  simp [pure, Durable.pure]

theorem update_update (params : ConsensusParams) (updates : ParamUpdates) :
    (params.update updates).update updates = params.update updates := by
  simp only [ConsensusParams.update]
  cases updates with
  | mk block evidence pubKeyTypes versionApp enable =>
    cases block <;> cases evidence <;> cases pubKeyTypes <;> cases versionApp <;>
      cases enable <;> rfl

/-- The state that `InitChain` makes, with the validator sets `sets`. -/
def begunState (cfg : Config A) (res : ResponseInitChain) (g : State)
    (sets : CachedValidatorSet × CachedValidatorSet) : State :=
  { initialParams res
      { g with
        appHash := if res.appHash ≠ [] then res.appHash else g.appHash
        validators := sets.1
        nextValidators := sets.2 } with
    timeouts := res.timeoutInfo
    lastResultsHash := cfg.emptyHash }

/-- The validator sets are those of the response, or those that there were. -/
def InitialSets (cfg : Config A) (res : ResponseInitChain) (g : State)
    (sets : CachedValidatorSet × CachedValidatorSet) : Prop :=
  if res.validators ≠ [] then (∀ v ∈ res.validators, HasKeySize v.1) ∧
    genesisValidators cfg.crypto.toCrypto res.validators = .ok sets
  else cfg.genDoc.validators ≠ [] ∧ sets = (g.validators, g.nextValidators)

theorem initialState_eq_ok : initialState cfg res g = .ok s ↔ ∃ sets, InitialSets cfg res g sets ∧
      s = begunState cfg res g sets := by
  unfold initialState initialValidators InitialSets
  by_cases hvals : res.validators ≠ []
  · simp only [if_pos hvals, validatorUpdates]
    by_cases hkeys : (res.validators.all fun u =>
      decide (u.1.bytes.length = u.1.type.pubKeySize)) = true
    · have hkeys' : ∀ v ∈ res.validators, HasKeySize v.1 := by
        intro v hv
        simpa [HasKeySize] using all_eq_true.1 hkeys v hv
      cases hsets : genesisValidators cfg.crypto.toCrypto res.validators with
      | error err => simp [if_pos hkeys]
      | ok sets =>
        simp only [if_pos hkeys, ok_bind, Except.ok.injEq]
        constructor
        · rintro rfl
          exact ⟨sets, ⟨hkeys', rfl⟩, rfl⟩
        · rintro ⟨_, ⟨-, rfl⟩, rfl⟩
          rfl
    · have hkeys' : ¬∀ v ∈ res.validators, HasKeySize v.1 := by
        intro hall
        exact hkeys (all_eq_true.2 fun v hv => by simpa [HasKeySize] using hall v hv)
      rw [if_neg hkeys]
      constructor
      · intro h
        cases h
      · rintro ⟨_, ⟨hall, -⟩, -⟩
        exact absurd hall hkeys'
  · simp only [if_neg hvals]
    by_cases hdoc : cfg.genDoc.validators = []
    · simp [hdoc]
    · simp only [if_neg hdoc, ok_bind, Except.ok.injEq]
      constructor
      · rintro rfl
        exact ⟨_, ⟨hdoc, rfl⟩, rfl⟩
      · rintro ⟨_, ⟨-, rfl⟩, rfl⟩
        rfl

theorem initialState_again (hversion : g.versionApp ≠ 0) (h : initialState cfg res g = .ok s)
    (version : UInt64) : initialState cfg res (withAppVersion version s) = .ok s := by
  obtain ⟨sets, hsets, rfl⟩ := initialState_eq_ok.1 h
  rw [initialState_eq_ok]
  refine ⟨sets, ?_, ?_⟩
  · unfold InitialSets at hsets ⊢
    split_ifs at hsets ⊢ with hvals
    · exact hsets
    · refine ⟨hsets.1, ?_⟩
      unfold withAppVersion begunState initialParams
      cases res.consensusParams <;> split_ifs <;> rfl
  · cases hparams : res.consensusParams with
    | none =>
      have hsame : (begunState cfg res g sets).versionApp = g.versionApp := by
        simp [begunState, initialParams, hparams]
      rw [withAppVersion, if_neg fun hc => hversion (hsame ▸ hc.2.1)]
      by_cases hhash : res.appHash = [] <;> simp [begunState, initialParams, hparams, hhash]
    | some updates =>
      unfold withAppVersion
      split_ifs <;> by_cases hhash : res.appHash = [] <;>
        simp [begunState, initialParams, hparams, hhash, update_update]

/-- The state of the genesis document, in the fields that matter here. -/
structure FromDoc (cfg : Config A) (g : State) : Prop where
  lastBlockHeight : g.lastBlockHeight = 0
  versionApp : g.versionApp ≠ 0
  lastValidators : g.lastValidators = .empty
  initialHeight : g.initialHeight = cfg.genDoc.initialHeight
  validatorsChanged : g.lastHeightValidatorsChanged = cfg.genDoc.initialHeight
  paramsChanged : g.lastHeightConsensusParamsChanged = cfg.genDoc.initialHeight
  sets : genesisValidators cfg.crypto.toCrypto cfg.genDoc.validators =
    .ok (g.validators, g.nextValidators)

theorem fromDoc_of_makeGenesisState
    (h : makeGenesisState cfg.crypto.toCrypto cfg.genDoc = .ok g) : FromDoc cfg g := by
  unfold makeGenesisState at h
  cases hvals : genesisValidators cfg.crypto.toCrypto cfg.genDoc.validators with
  | error err => simp [hvals] at h
  | ok p =>
    simp only [hvals, Except.ok.injEq] at h
    subst h
    constructor
    case versionApp =>
      dsimp only [getAppVersion]
      split_ifs with hzero
      · exact hzero
      · decide
    case sets => exact hvals
    all_goals rfl

theorem FromDoc.genesis {sets : CachedValidatorSet × CachedValidatorSet} (hg : FromDoc cfg g)
    (hinitial : 1 ≤ cfg.genDoc.initialHeight) (hkeys : ∀ v ∈ cfg.genDoc.validators, HasKeySize v.1)
    (hsets : InitialSets cfg res g sets) : Genesis cfg.crypto.toCrypto
      (begunState cfg res g sets) := by
  have hfields : (begunState cfg res g sets).lastBlockHeight = g.lastBlockHeight ∧
      (begunState cfg res g sets).initialHeight = g.initialHeight ∧
      (begunState cfg res g sets).lastHeightValidatorsChanged = g.lastHeightValidatorsChanged ∧
      (begunState cfg res g sets).lastHeightConsensusParamsChanged =
        g.lastHeightConsensusParamsChanged ∧
      ((begunState cfg res g sets).validators, (begunState cfg res g sets).nextValidators) =
        sets := by
    unfold begunState initialParams
    cases res.consensusParams <;> exact ⟨rfl, rfl, rfl, rfl, rfl⟩
  obtain ⟨hlast, hinit, hvals, hparams, hpair⟩ := hfields
  constructor
  case lastBlockHeight => rw [hlast, hg.lastBlockHeight]
  case initialHeight => rwa [hinit, hg.initialHeight]
  case validatorsChanged => rw [hvals, hinit, hg.validatorsChanged, hg.initialHeight]
  case paramsChanged => rw [hparams, hinit, hg.paramsChanged, hg.initialHeight]
  case validators =>
    rw [hpair]
    unfold InitialSets at hsets
    split_ifs at hsets with hne
    · exact ⟨res.validators, hne, hsets⟩
    · obtain ⟨hdoc, rfl⟩ := hsets
      exact ⟨cfg.genDoc.validators, hdoc, hkeys, hg.sets⟩

def freshNode (cfg : Config A) : Node A := ⟨[], fun _ => none, none, .empty, ⟨0, cfg.app.fresh, []⟩⟩

def begunNode (cfg : Config A) (s : State) : Node A :=
  (freshNode cfg).withStore (StateStore.empty.saved s)

theorem begun_of_start {now : Time} {p : State × ProxyApp A}
    (hinitial : 1 ≤ cfg.genDoc.initialHeight)
    (hkeys : ∀ v ∈ cfg.genDoc.validators, HasKeySize v.1)
    (h : (handshake cfg now (freshNode cfg)).result = .ok p) :
    ∃ a, p.2 = .real a ∧ Begun cfg a p.1 ∧ Genesis cfg.crypto.toCrypto p.1 ∧
      p.1.initialHeight = cfg.genDoc.initialHeight ∧
      ∀ later, handshake cfg later (freshNode cfg) = ⟨[begunNode cfg p.1], .ok p⟩ := by
  have hstart := h
  rw [handshake, read_bind_apply] at h
  obtain ⟨g, hg, heq⟩ := lift_bind_eq_ok h
  have hload : makeGenesisState cfg.crypto.toCrypto cfg.genDoc = .ok g := hg
  have hdoc := fromDoc_of_makeGenesisState hload
  have hversion : ∀ version, withAppVersion version g = g := by
    intro version
    rw [withAppVersion, if_neg fun hc => hdoc.versionApp hc.2.1]
  have hnonneg : ¬(freshNode cfg).app.height < 0 := lt_irrefl 0
  have hzero : (freshNode cfg).app.height = 0 := rfl
  rw [heq, if_neg hnonneg] at h
  obtain ⟨done, hdone, -⟩ := bind_eq_ok h
  rw [replayAll, read_bind_apply, if_pos hzero, hversion] at hdone
  obtain ⟨init, hinit, hsync⟩ := bind_eq_ok hdone
  have hinit' := hinit
  rw [initChain] at hinit
  obtain ⟨vals, hvals, heq₁⟩ := lift_bind_eq_ok hinit
  rw [heq₁] at hinit
  obtain ⟨⟨a, res⟩, hres, heq₂⟩ := lift_bind_eq_ok hinit
  rw [heq₂, if_pos hdoc.lastBlockHeight] at hinit
  obtain ⟨s₁, hs₁, -⟩ := lift_bind_eq_ok hinit
  obtain ⟨sets, hsets, hbegun⟩ := initialState_eq_ok.1 hs₁
  have hgenesis : Genesis cfg.crypto.toCrypto s₁ := hbegun ▸ hdoc.genesis hinitial hkeys hsets
  have hstorable := hgenesis.sound.storable
  have hchain := initChain_eq hvals hres hdoc.lastBlockHeight hs₁ hstorable (freshNode cfg)
  have hlast : s₁.lastValidators = .empty := by
    rw [hbegun, ← hdoc.lastValidators]
    unfold begunState initialParams
    cases res.consensusParams <;> rfl
  have hinitial' : s₁.initialHeight = cfg.genDoc.initialHeight := by
    rw [hbegun, ← hdoc.initialHeight]
    unfold begunState initialParams
    cases res.consensusParams <;> rfl
  -- the hash of the application is that of the state
  have hhash : res.appHash = s₁.appHash := by
    rw [hchain] at hinit'
    cases hinit'
    rw [syncBlocks, read_bind_apply, final, hchain] at hsync
    have hempty : (begunNode cfg s₁).height = 0 := rfl
    rw [show [(freshNode cfg).withStore ((freshNode cfg).store.saved s₁)].getLastD (freshNode cfg) =
      begunNode cfg s₁ from rfl, if_pos hempty] at hsync
    obtain ⟨_, hassert, -⟩ := lift_bind_eq_ok hsync
    unfold assertAppHashEqualsOneFromState at hassert
    split_ifs at hassert with heq
    exact heq
  have hforward : ∀ later, handshake cfg later (freshNode cfg) =
      ⟨[begunNode cfg s₁], .ok (s₁, .real a)⟩ := by
    intro later
    apply handshake_eq hg (le_refl 0)
    · rw [replayAll, read_bind_apply, if_pos hzero, hversion,
        single_bind_apply hchain, syncBlocks_empty rfl hhash]
      rfl
    · exact load_saved_genesis hstorable hgenesis.lastBlockHeight hlast .empty
  rw [hforward now] at hstart
  cases hstart
  exact ⟨a, rfl, ⟨hgenesis.lastBlockHeight, hlast, ⟨vals, hvals⟩, ⟨res, hres, hhash, fun version =>
    initialState_again hdoc.versionApp hs₁ version⟩⟩, hgenesis, hinitial', hforward⟩

end Begin

/-! ## Nodes between blocks -/

section Synced
variable {n : Node A} {a : A} {s : State} {now : Time}

/-- A node whose block store, state and application are at the same height, with the state and the
application that the process has in memory. -/
structure Synced (cfg : Config A) (s : State) (a : A) (n : Node A) : Prop where
  loads : n.store.load cfg.crypto.toCrypto = .ok (some s)
  sound : s.Sound cfg.crypto.toCrypto
  initial : s.initialHeight = cfg.genDoc.initialHeight
  numbered : Numbered s.initialHeight n.blocks
  height : n.height = s.lastBlockHeight
  appHeight : n.app.height = s.lastBlockHeight
  committed : n.app.committed = n.blocks
  memory : s.lastBlockHeight ≠ 0 → a = n.app.state ∧ cfg.app.appHash a = s.appHash
  start : s.lastBlockHeight = 0 → Begun cfg a s ∧ n.store.saved s = n.store

theorem Synced.begun (hbegun : Begun cfg a s) (hgenesis : Genesis cfg.crypto.toCrypto s)
    (hinitial : s.initialHeight = cfg.genDoc.initialHeight) : Synced cfg s a (begunNode cfg s) where
  loads := load_saved_genesis hgenesis.sound.storable hbegun.zero hbegun.lastValidators .empty
  sound := hgenesis.sound
  initial := hinitial
  numbered := nofun
  height := hbegun.zero.symm
  appHeight := hbegun.zero.symm
  committed := rfl
  memory := fun h => absurd hbegun.zero h
  start := fun _ => ⟨hbegun, saved_saved s .empty⟩

theorem Synced.blocks_ne_nil (h : Synced cfg s a n) (hne : s.lastBlockHeight ≠ 0) :
    n.blocks ≠ [] := by
  intro hnil
  have hheight := h.height
  rw [Node.height, hnil] at hheight
  exact hne hheight.symm

theorem Synced.nextHeight_eq (h : Synced cfg s a n) :
    s.nextHeight = s.initialHeight + n.blocks.length := by
  have hpos := h.sound.initial_pos
  by_cases hnil : n.blocks = []
  · have hheight := h.height
    rw [Node.height, hnil] at hheight
    rw [State.nextHeight, ← hheight, hnil]
    simp
  · have hheight := h.numbered.height_eq hnil
    have hlen := length_pos_iff.2 hnil
    rw [h.height] at hheight
    rw [State.nextHeight, if_neg (by omega)]
    omega

theorem loadState_eq (hloads : n.store.load cfg.crypto.toCrypto = .ok (some s)) :
    loadState cfg n = .ok s := by
  rw [loadState, hloads]

theorem withAppVersion_eq (h : s.lastBlockHeight ≠ 0 ∨ s.versionApp ≠ 0) (version : UInt64) :
    withAppVersion version s = s := by
  rw [withAppVersion, if_neg]
  rintro ⟨hzero, hversion, -⟩
  exact h.elim (absurd hzero) (absurd hversion)

theorem checkHeights_eq_ok {appHeight : Int} (hbase : n.base = s.initialHeight)
    (happ : appHeight ≠ 0 → s.initialHeight ≤ appHeight) (hle : appHeight ≤ n.height)
    (hlo : s.lastBlockHeight ≤ n.height) (hhi : n.height ≤ s.lastBlockHeight + 1) :
    checkHeights n s appHeight = .ok () := by
  unfold checkHeights
  rw [if_neg (by omega), if_neg (by omega), if_neg (by omega), if_neg (by omega), if_neg (by omega)]

/-- The application is at the height of the state: it is initialized again before the first block,
and then the blocks are synced. -/
theorem Synced.handshake_of_sync (h : Synced cfg s a n) {t : Node A} (hstore : t.store = n.store)
    (happ : t.app = n.app) {trail : List (Node A)} {hash : Bytes} {proxyApp : ProxyApp A}
    {s' : State} (hsync : syncBlocks cfg a s.appHash s s.lastBlockHeight now t =
      ⟨trail, .ok (hash, proxyApp)⟩)
    (hfinal : (trail.getLastD t).store.load cfg.crypto.toCrypto = .ok (some s')) :
    ∃ before, (∀ u ∈ before, u = t) ∧
      handshake cfg now t = ⟨before ++ trail, .ok (s', proxyApp)⟩ := by
  have hload : loadState cfg t = .ok s := loadState_eq (hstore ▸ h.loads)
  have hheight : t.app.height = s.lastBlockHeight := by rw [happ, h.appHeight]
  have hnonneg : 0 ≤ t.app.height := hheight ▸ h.sound.lastBlockHeight
  by_cases hzero : s.lastBlockHeight = 0
  · obtain ⟨hbegun, hsaved⟩ := h.start hzero
    refine ⟨[t], fun u hu => mem_singleton.1 hu, ?_⟩
    apply Replay.handshake_eq hload hnonneg
    · rw [replayAll, read_bind_apply, if_pos (hheight.trans hzero), hheight,
        single_bind_apply (hbegun.initChain_eq h.sound.storable (hstore ▸ hsaved) _), hsync]
      rfl
    · rw [Durable.getLastD_append]
      exact hfinal
  · obtain ⟨hmem, hhash⟩ := h.memory hzero
    refine ⟨[], fun u hu => absurd hu not_mem_nil, ?_⟩
    apply Replay.handshake_eq hload hnonneg
    · rw [replayAll, read_bind_apply, if_neg (hheight ▸ hzero), withAppVersion_eq (.inl hzero),
        happ, ← hmem, hhash, h.appHeight, hsync]
      rfl
    · exact hfinal

theorem Synced.handshake_eq (h : Synced cfg s a n) (now : Time) :
    ∃ trail, handshake cfg now n = ⟨trail, .ok (s, .real a)⟩ ∧ ∀ t ∈ trail, t = n := by
  have hassert : assertAppHashEqualsOneFromState s.appHash s = .ok () := if_pos rfl
  have hsync : syncBlocks cfg a s.appHash s s.lastBlockHeight now n =
      ⟨[], .ok (s.appHash, .real a)⟩ := by
    by_cases hzero : s.lastBlockHeight = 0
    · exact syncBlocks_empty (h.height.trans hzero) rfl
    · have hne := h.blocks_ne_nil hzero
      have hheight := h.numbered.height_eq hne
      have hlen := length_pos_iff.2 hne
      have hheq := h.height
      have hcheck : checkHeights n s s.lastBlockHeight = .ok () := by
        apply checkHeights_eq_ok (h.numbered.base_eq hne) <;> omega
      rw [syncBlocks, read_bind_apply, if_neg (by omega), lift_bind_apply hcheck, if_pos hheq,
        if_neg (by omega), lift_bind_apply hassert]
      rfl
  obtain ⟨before, hbefore, heq⟩ := h.handshake_of_sync rfl rfl hsync h.loads
  exact ⟨before, by rw [heq, append_nil], hbefore⟩

theorem Synced.final_handshake (h : Synced cfg s a n) (now : Time) :
    (handshake cfg now).final n = n := by
  obtain ⟨trail, heq, hsame⟩ := h.handshake_eq now
  apply Durable.final_of_forall_eq
  rw [heq]
  exact hsame

end Synced

end CelestiaCore.Replay
