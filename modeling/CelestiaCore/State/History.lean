import CelestiaCore.State.Store

/-!
# Validators and parameters by height

The records that `Save` writes lead from every height back to what is in force there.
-/
namespace CelestiaCore.SM
open Wire Program StateStore Function List Except State

abbrev identities (vals : CachedValidatorSet) : List (Bytes × Option PubKey × Int) :=
  vals.validators.map Validator.identity

def HasKeySize (pk : PubKey) : Prop := pk.bytes.length = pk.type.pubKeySize

/-- A state from which a chain begins: from a genesis document or after `InitChain`. -/
structure Genesis (crypto : Crypto) (g : State) : Prop where
  lastBlockHeight : g.lastBlockHeight = 0
  initialHeight : 1 ≤ g.initialHeight
  validators : ∃ vals : List (PubKey × Int), vals ≠ [] ∧ (∀ v ∈ vals, HasKeySize v.1) ∧
    genesisValidators crypto vals = .ok (g.validators, g.nextValidators)
  validatorsChanged : g.lastHeightValidatorsChanged = g.initialHeight
  paramsChanged : g.lastHeightConsensusParamsChanged = g.initialHeight

theorem genesis_makeGenesisState {crypto : Crypto} {genDoc : GenesisDoc} {g : State}
    (hinitial : 1 ≤ genDoc.initialHeight) (hne : genDoc.validators ≠ [])
    (hkeys : ∀ v ∈ genDoc.validators, HasKeySize v.1) (h : makeGenesisState crypto genDoc = .ok g) :
    Genesis crypto g := by
  unfold makeGenesisState at h
  cases hvals : genesisValidators crypto genDoc.validators with
  | error err => simp [hvals] at h
  | ok p =>
    simp only [hvals, ok.injEq] at h
    subst h
    exact ⟨rfl, hinitial, ⟨genDoc.validators, hne, hkeys, hvals⟩, rfl, rfl⟩

theorem initialHeight_makeGenesisState {crypto : Crypto} {genDoc : GenesisDoc} {g : State}
    (h : makeGenesisState crypto genDoc = .ok g) : g.initialHeight = genDoc.initialHeight := by
  unfold makeGenesisState at h
  split at h
  · cases h
  · cases h
    rfl

/-- One block: a header of the next height and a response with keys of the right size. -/
structure Applies (crypto : Crypto) (s : State) (blockID : BlockID) (header : Header)
    (response : ResponseFinalizeBlock) (s' : State) : Prop where
  height : header.height.toInt = s.nextHeight
  keys : ∀ u ∈ response.validatorUpdates, HasKeySize u.1
  executed : executed crypto s blockID header response = .ok s'

structure State.Sound (crypto : Crypto) (s : State) : Prop where
  lastBlockHeight : 0 ≤ s.lastBlockHeight
  initial_pos : 1 ≤ s.initialHeight
  initial_le : s.initialHeight ≤ s.nextHeight
  validators : s.validators.Sound crypto
  nextValidators : s.nextValidators.Sound crypto
  lastValidators : 1 ≤ s.lastBlockHeight → s.lastValidators.Sound crypto
  validatorsChanged : s.initialHeight ≤ s.lastHeightValidatorsChanged ∧
    s.lastHeightValidatorsChanged ≤ s.nextHeight + 1
  paramsChanged : s.initialHeight ≤ s.lastHeightConsensusParamsChanged ∧
    s.lastHeightConsensusParamsChanged ≤ s.nextHeight

section Chain
variable {crypto : Crypto} {s s' : State} {blockID : BlockID} {header : Header}
  {response : ResponseFinalizeBlock}

theorem fromKey_newValidator {pk : PubKey} (h : HasKeySize pk) (power : Int) :
    (newValidator crypto pk power).FromKey crypto := ⟨pk, rfl, h, rfl⟩

theorem genesisValidators_sound {vals : List (PubKey × Int)} {v n : CachedValidatorSet}
    (hne : vals ≠ []) (hkeys : ∀ v ∈ vals, HasKeySize v.1)
    (h : genesisValidators crypto vals = .ok (v, n)) :
    v.Sound crypto ∧ n.Sound crypto ∧ identities n = identities v := by
  unfold genesisValidators at h
  cases hnew : CachedValidatorSet.newValidatorSet
      (vals.map fun val => newValidator crypto val.1 val.2) with
  | error err => simp [hnew] at h
  | ok w =>
    simp only [hnew, if_neg hne] at h
    have hw : w.Sound crypto := by
      refine CachedValidatorSet.sound_newValidatorSet (fun u hu => ?_) (by simpa using hne) hnew
      obtain ⟨val, hval, rfl⟩ := mem_map.1 hu
      exact fromKey_newValidator (hkeys val hval) val.2
    obtain ⟨w', hinc, hsound, hid⟩ := hw.increments Int.one_pos
    rw [hinc] at h
    cases h
    exact ⟨hw, hsound, hid⟩

theorem nextValSet_sound {vals vals' : CachedValidatorSet} {updates : List (PubKey × Int)}
    (hvals : vals.Sound crypto) (hkeys : ∀ u ∈ updates, HasKeySize u.1)
    (h : nextValSet vals (updates.map fun u => newValidator crypto u.1 u.2) = .ok vals') :
    vals'.Sound crypto ∧ (updates = [] → identities vals' = identities vals) := by
  unfold nextValSet at h
  by_cases hnil : updates = []
  · rw [hnil, map_nil, if_pos rfl] at h
    obtain ⟨w, hinc, hsound, hid⟩ := hvals.increments Int.one_pos
    obtain rfl := ok.inj (hinc.symm.trans h)
    exact ⟨hsound, fun _ => hid⟩
  · have hne : updates.map (fun u => newValidator crypto u.1 u.2) ≠ [] := by simpa using hnil
    rw [if_neg hne] at h
    cases hup : vals.updateWithChangeSet (updates.map fun u =>
      newValidator crypto u.1 u.2) true with
    | error err => simp [hup] at h
    | ok p =>
      obtain ⟨w, err⟩ := p
      cases err with
      | some err => simp [hup] at h
      | none =>
        simp only [hup] at h
        refine ⟨hvals.valid.sound_of_update hvals.fromKey (fun v hv => ?_) hne hup h,
          fun heq => absurd heq hnil⟩
        obtain ⟨u, hu, rfl⟩ := mem_map.1 hv
        exact fromKey_newValidator (hkeys u hu) u.2

theorem Genesis.nextHeight_eq (h : Genesis crypto s) : s.nextHeight = s.initialHeight := by
  rw [nextHeight, h.lastBlockHeight, if_pos (zero_add 1)]

theorem Genesis.sound (h : Genesis crypto s) : s.Sound crypto := by
  obtain ⟨vals, hne, hkeys, hvals⟩ := h.validators
  obtain ⟨hv, hn, -⟩ := genesisValidators_sound hne hkeys hvals
  have hnext := h.nextHeight_eq
  have hzero := h.lastBlockHeight
  have hv' := h.validatorsChanged
  have hp' := h.paramsChanged
  exact ⟨hzero.ge, h.initialHeight, hnext.ge, hv, hn, fun hone => by omega, by omega, by omega⟩

theorem Applies.nextHeight_eq (hs : s.Sound crypto)
    (h : Applies crypto s blockID header response s') : s'.nextHeight = s.nextHeight + 1 := by
  have hlast := (executed_eq_ok h.executed).lastBlockHeight
  have hpos := hs.initial_pos.trans hs.initial_le
  rw [h.height] at hlast
  rw [nextHeight, hlast, if_neg (by omega)]

theorem Applies.sound (hs : s.Sound crypto) (h : Applies crypto s blockID header response s') :
    s'.Sound crypto := by
  have hu := executed_eq_ok h.executed
  have hnext := h.nextHeight_eq hs
  have hheight := h.height
  have hpos := hs.initial_pos.trans hs.initial_le
  have hvals := hs.validatorsChanged
  have hparams := hs.paramsChanged
  have hinit := hs.initial_le
  have hlast := hu.lastBlockHeight
  have hinitial := hu.initialHeight
  constructor
  case lastBlockHeight => omega
  case initial_pos => exact hinitial ▸ hs.initial_pos
  case initial_le => omega
  case validators => exact hu.validators ▸ hs.nextValidators
  case nextValidators => exact (nextValSet_sound hs.nextValidators h.keys hu.nextValidators).1
  case lastValidators => exact fun _ => hu.lastValidators ▸ hs.validators
  case validatorsChanged =>
    rw [hu.validatorsChanged, hinitial, hnext]
    split
    · omega
    · omega
  case paramsChanged =>
    rw [hu.paramsChanged, hinitial, hnext]
    split
    · omega
    · omega

/-- How the states of a chain hang together. `s` is the newest and `g` the first of them. -/
structure Linked (crypto : Crypto) (g s : State) (states : List State) : Prop where
  genesis : Genesis crypto g
  sound : ∀ t ∈ states, t.Sound crypto
  first : g ∈ states
  newest : s ∈ states
  initialHeight : ∀ t ∈ states, t.initialHeight = g.initialHeight
  nextHeight_le : ∀ t ∈ states, t.nextHeight ≤ s.nextHeight
  distinct : ∀ t ∈ states, ∀ u ∈ states, t.nextHeight = u.nextHeight → t = u
  /-- There is a state before every height. -/
  covers : ∀ h, g.initialHeight ≤ h → h ≤ s.nextHeight → ∃ t ∈ states, t.nextHeight = h
  /-- The validators of a state are the next ones of the state before it. -/
  before : ∀ t ∈ states, t = g ∨ ∃ u ∈ states, u.nextHeight + 1 = t.nextHeight ∧
    t.validators = u.nextValidators
  validators : ∀ t ∈ states, ∀ u ∈ states, t.lastHeightValidatorsChanged ≤ u.nextHeight + 1 →
    u.nextHeight ≤ t.nextHeight → identities u.nextValidators = identities t.nextValidators ∧
      u.lastHeightValidatorsChanged = t.lastHeightValidatorsChanged
  params : ∀ t ∈ states, ∀ u ∈ states, t.lastHeightConsensusParamsChanged ≤ u.nextHeight →
    u.nextHeight ≤ t.nextHeight → u.consensusParams = t.consensusParams ∧
      u.lastHeightConsensusParamsChanged = t.lastHeightConsensusParamsChanged

theorem Genesis.linked {g : State} (h : Genesis crypto g) : Linked crypto g g [g] := by
  constructor
  case genesis => exact h
  case sound =>
    intro t ht
    rw [mem_singleton.1 ht]
    exact h.sound
  case first => exact mem_singleton.2 rfl
  case newest => exact mem_singleton.2 rfl
  case initialHeight =>
    intro t ht
    rw [mem_singleton.1 ht]
  case nextHeight_le =>
    intro t ht
    rw [mem_singleton.1 ht]
  case distinct =>
    intro t ht u hu _
    rw [mem_singleton.1 ht, mem_singleton.1 hu]
  case covers =>
    intro k hlo hhi
    rw [h.nextHeight_eq] at hhi
    exact ⟨g, mem_singleton.2 rfl, h.nextHeight_eq.trans (le_antisymm hlo hhi)⟩
  case before => exact fun t ht => .inl (mem_singleton.1 ht)
  case validators =>
    intro t ht u hu _ _
    rw [mem_singleton.1 ht, mem_singleton.1 hu]
    exact ⟨rfl, rfl⟩
  case params =>
    intro t ht u hu _ _
    rw [mem_singleton.1 ht, mem_singleton.1 hu]
    exact ⟨rfl, rfl⟩

theorem Linked.next {g : State} {states : List State} (hl : Linked crypto g s states)
    (h : Applies crypto s blockID header response s') : Linked crypto g s' (s' :: states) := by
  have hs := hl.sound s hl.newest
  have hu := executed_eq_ok h.executed
  have hnext := h.nextHeight_eq hs
  have hheight := h.height
  -- an older state is below the new one
  have hold : ∀ t ∈ states, t.nextHeight < s'.nextHeight := fun t ht =>
    hnext ▸ Int.lt_add_one_of_le (hl.nextHeight_le t ht)
  constructor
  case genesis => exact hl.genesis
  case sound => exact forall_mem_cons.2 ⟨h.sound hs, hl.sound⟩
  case first => exact mem_cons_of_mem _ hl.first
  case newest => exact mem_cons_self
  case initialHeight =>
    intro t ht
    rcases mem_cons.1 ht with rfl | ht
    · exact hu.initialHeight.trans (hl.initialHeight s hl.newest)
    · exact hl.initialHeight t ht
  case nextHeight_le =>
    intro t ht
    rcases mem_cons.1 ht with rfl | ht
    · exact le_rfl
    · exact (hold t ht).le
  case distinct =>
    intro t ht u hu' heq
    rcases mem_cons.1 ht with rfl | ht'
    · rcases mem_cons.1 hu' with rfl | hu'
      · rfl
      · exact absurd heq (hold u hu').ne'
    · rcases mem_cons.1 hu' with rfl | hu'
      · exact absurd heq (hold t ht').ne
      · exact hl.distinct t ht' u hu' heq
  case covers =>
    intro k hlo hhi
    by_cases hk : k = s'.nextHeight
    · exact ⟨s', mem_cons_self, hk.symm⟩
    · obtain ⟨t, ht, heq⟩ := hl.covers k hlo (by omega)
      exact ⟨t, mem_cons_of_mem _ ht, heq⟩
  case before =>
    intro t ht
    rcases mem_cons.1 ht with rfl | ht
    · exact .inr ⟨s, mem_cons_of_mem _ hl.newest, hnext.symm, hu.validators⟩
    · rcases hl.before t ht with rfl | ⟨u, hu', heq⟩
      · exact .inl rfl
      · exact .inr ⟨u, mem_cons_of_mem _ hu', heq⟩
  case validators =>
    intro t ht u hu' hchanged hle
    rcases mem_cons.1 ht with rfl | ht'
    · rcases mem_cons.1 hu' with rfl | hu'
      · exact ⟨rfl, rfl⟩
      · have hlt := hold u hu'
        rw [hu.validatorsChanged] at hchanged ⊢
        by_cases hnil : response.validatorUpdates = []
        · rw [if_pos hnil] at hchanged ⊢
          have hid := (nextValSet_sound hs.nextValidators h.keys hu.nextValidators).2 hnil
          obtain ⟨hids, hchg⟩ := hl.validators s hl.newest u hu' hchanged (by omega)
          exact ⟨hids.trans hid.symm, hchg⟩
        · rw [if_neg hnil] at hchanged
          omega
    · rcases mem_cons.1 hu' with rfl | hu'
      · exact absurd hle (not_le.2 (hold t ht'))
      · exact hl.validators t ht' u hu' hchanged hle
  case params =>
    intro t ht u hu' hchanged hle
    rcases mem_cons.1 ht with rfl | ht'
    · rcases mem_cons.1 hu' with rfl | hu'
      · exact ⟨rfl, rfl⟩
      · have hlt := hold u hu'
        rw [hu.paramsChanged] at hchanged ⊢
        have hparams := hu.consensusParams
        cases hup : response.consensusParamUpdates with
        | some updates =>
          rw [hup, Option.isSome_some, if_pos rfl] at hchanged
          omega
        | none =>
          rw [hup] at hchanged hparams
          obtain ⟨hids, hchg⟩ := hl.params s hl.newest u hu' (by simpa using hchanged) (by omega)
          have heq : s.consensusParams = t.consensusParams := ok.inj hparams
          exact ⟨hids.trans heq, by simpa using hchg⟩
    · rcases mem_cons.1 hu' with rfl | hu'
      · exact absurd hle (not_le.2 (hold t ht'))
      · exact hl.params t ht' u hu' hchanged hle

end Chain

section Records
variable {crypto : Crypto} {g s t : State} {states : List State} {store : StateStore}

/-- The record of the validators that `Save` writes for the height after the next. -/
def validatorsRecord (s : State) : ValidatorsInfo where
  validatorSet := if s.nextHeight + 1 = s.lastHeightValidatorsChanged ∨
      (s.nextHeight + 1) % valSetCheckpointInterval = 0 then some s.nextValidators.toValidatorSet
    else none
  lastHeightChanged := s.lastHeightValidatorsChanged

/-- The record of the parameters that `Save` writes for the next height. -/
def paramsRecord (s : State) : ConsensusParamsInfo :=
  newConsensusParamsInfo s.nextHeight s.lastHeightConsensusParamsChanged s.consensusParams

def initialRecord (s : State) : ValidatorsInfo :=
  ⟨some s.validators.toValidatorSet, s.initialHeight⟩

def State.stored (s : State) : State :=
  { s with
    validators := ⟨s.validators.toValidatorSet, 0⟩
    nextValidators := ⟨s.nextValidators.toValidatorSet, 0⟩
    lastValidators := if 1 ≤ s.lastBlockHeight then
      ⟨s.lastValidators.toValidatorSet, 0⟩ else .empty }

/-- A state that `Save` accepts: its validator sets are loaded as they are stored. -/
structure State.Storable (crypto : Crypto) (s : State) : Prop where
  validators : s.validators.Loaded crypto
  nextValidators : s.nextValidators.Loaded crypto
  lastValidators : 1 ≤ s.lastBlockHeight → s.lastValidators.Loaded crypto
  validatorsChanged : s.lastHeightValidatorsChanged ≤ s.nextHeight + 1

theorem State.Sound.storable (hs : s.Sound crypto) : s.Storable crypto :=
  ⟨hs.validators.loaded, hs.nextValidators.loaded, fun hone => (hs.lastValidators hone).loaded,
    hs.validatorsChanged.2⟩

theorem State.Storable.newValidatorsInfo_eq (hs : s.Storable crypto) :
    newValidatorsInfo (s.nextHeight + 1) s.lastHeightValidatorsChanged
      s.nextValidators.toValidatorSet = .ok (validatorsRecord s) := by
  have hchanged := hs.validatorsChanged
  rw [newValidatorsInfo, if_neg (not_lt.2 hchanged), validatorsRecord, hs.nextValidators.toProto_eq]
  split
  · rfl
  · rfl

theorem State.Storable.toProto_eq (hs : s.Storable crypto) : s.toProto = .ok s.stored := by
  rw [toProto, hs.validators.toProto_eq, hs.nextValidators.toProto_eq, stored]
  by_cases hone : 1 ≤ s.lastBlockHeight
  · simp only [if_pos hone, (hs.lastValidators hone).toProto_eq, ok_bind]
  · simp only [if_neg hone, ok_bind]

def StateStore.saved (s : State) (store : StateStore) : StateStore where
  validatorsInfo := update
    (if s.lastBlockHeight = 0 then
        update store.validatorsInfo s.initialHeight (some (initialRecord s))
      else store.validatorsInfo) (s.nextHeight + 1) (some (validatorsRecord s))
  consensusParamsInfo := update store.consensusParamsInfo s.nextHeight
    (some (paramsRecord s))
  state := some s.stored

theorem StateStore.validatorsInfo_saved (s : State) (store : StateStore) :
    (store.saved s).validatorsInfo = update
      (if s.lastBlockHeight = 0 then
          update store.validatorsInfo s.initialHeight (some (initialRecord s))
        else store.validatorsInfo) (s.nextHeight + 1) (some (validatorsRecord s)) := rfl

theorem StateStore.consensusParamsInfo_saved (s : State) (store : StateStore) :
    (store.saved s).consensusParamsInfo = update store.consensusParamsInfo s.nextHeight
      (some (paramsRecord s)) := rfl

theorem State.Storable.saveBatch_eq (hs : s.Storable crypto) (store : StateStore) :
    store.saveBatch s = .ok (store.saved s) := by
  rw [saveBatch]
  by_cases hzero : s.lastBlockHeight = 0
  · have hnext : s.nextHeight = s.initialHeight := by rw [nextHeight, hzero, if_pos (zero_add 1)]
    have hinfo : newValidatorsInfo s.nextHeight s.nextHeight s.validators.toValidatorSet =
        .ok (initialRecord s) := by
      rw [newValidatorsInfo, if_neg (lt_irrefl _), if_pos (.inl rfl),
        hs.validators.toProto_eq, hnext]
      rfl
    simp only [hzero, zero_add, if_true, hinfo, hs.newValidatorsInfo_eq, hs.toProto_eq,
      bind, bind, saved, ← hnext]
    rfl
  · have hone : ¬s.lastBlockHeight + 1 = 1 := by omega
    simp only [if_neg hone, hs.newValidatorsInfo_eq, hs.toProto_eq, bind, bind,
      saved, if_neg hzero]
    rfl

theorem State.Sound.final_save (hs : s.Sound crypto) (store : StateStore) :
    (save s).final store = store.saved s := by
  simp only [Durable.final, save, hs.storable.saveBatch_eq]
  rfl

/-- The store holds the records of all states of a chain. -/
structure Recorded (g : State) (states : List State) (store : StateStore) : Prop where
  initial : store.validatorsInfo g.initialHeight = some (initialRecord g)
  validators : ∀ t ∈ states, store.validatorsInfo (t.nextHeight + 1) = some (validatorsRecord t)
  params : ∀ t ∈ states, store.consensusParamsInfo t.nextHeight = some (paramsRecord t)

theorem Linked.eq_first (hl : Linked crypto g s states) (ht : t ∈ states)
    (hzero : t.lastBlockHeight = 0) : t = g := by
  refine hl.distinct t ht g hl.first ?_
  rw [hl.genesis.nextHeight_eq, nextHeight, hzero, if_pos (zero_add 1), hl.initialHeight t ht]

/-- A state that is saved, or saved again, adds its own records and keeps those of the others. -/
theorem Recorded.saved (hl : Linked crypto g s states) (ht : t ∈ states)
    (hinitial : t = g ∨ store.validatorsInfo g.initialHeight = some (initialRecord g))
    (hothers : ∀ u ∈ states, u ≠ t →
      store.validatorsInfo (u.nextHeight + 1) = some (validatorsRecord u) ∧
      store.consensusParamsInfo u.nextHeight = some (paramsRecord u)) :
    Recorded g states (store.saved t) := by
  have hge : ∀ u ∈ states, g.initialHeight ≤ u.nextHeight := fun u hu =>
    hl.initialHeight u hu ▸ (hl.sound u hu).initial_le
  constructor
  case initial =>
    have hne : g.initialHeight ≠ t.nextHeight + 1 := by
      have := hge t ht
      omega
    rw [validatorsInfo_saved, update_of_ne hne]
    by_cases hg : t = g
    · subst hg
      rw [if_pos hl.genesis.lastBlockHeight, update_self]
    · rw [if_neg fun h => hg (hl.eq_first ht h)]
      exact hinitial.resolve_left hg
  case validators =>
    intro u hu
    by_cases hut : u = t
    · rw [hut, validatorsInfo_saved, update_self]
    have hne : u.nextHeight + 1 ≠ t.nextHeight + 1 := fun heq =>
      hut (hl.distinct u hu t ht (by omega))
    have hne' : u.nextHeight + 1 ≠ t.initialHeight := by
      have := hge u hu
      rw [hl.initialHeight t ht]
      omega
    rw [validatorsInfo_saved, update_of_ne hne]
    split
    · rw [update_of_ne hne']
      exact (hothers u hu hut).1
    · exact (hothers u hu hut).1
  case params =>
    intro u hu
    by_cases hut : u = t
    · rw [hut, consensusParamsInfo_saved, update_self]
    · have hne : u.nextHeight ≠ t.nextHeight := fun heq => hut (hl.distinct u hu t ht heq)
      rw [consensusParamsInfo_saved, update_of_ne hne]
      exact (hothers u hu hut).2

/-- The store after each state of a chain is saved, one after the other, and any of them again at
any time. -/
inductive Saved (crypto : Crypto) : List State → StateStore → Prop where
  | genesis {g : State} (h : Genesis crypto g) :
    Saved crypto [g] ((save g).final .empty)
  | next {s s' : State} {states : List State} {store : StateStore} {blockID : BlockID}
      {header : Header} {response : ResponseFinalizeBlock}
        (hsaved : Saved crypto (s :: states) store)
      (happlies : Applies crypto s blockID header response s') :
    Saved crypto (s' :: s :: states) ((save s').final store)
  | again {t : State} {states : List State} {store : StateStore}
    (hsaved : Saved crypto states store)
      (ht : t ∈ states) : Saved crypto states ((save t).final store)

theorem Saved.recorded (h : Saved crypto (s :: states) store) :
    ∃ g, Linked crypto g s (s :: states) ∧ Recorded g (s :: states) store := by
  generalize hlist : s :: states = l at h
  induction h generalizing s states with
  | @genesis g h =>
    obtain ⟨rfl, rfl⟩ := List.cons.inj hlist
    refine ⟨s, h.linked, ?_⟩
    rw [h.sound.final_save]
    exact .saved h.linked (mem_singleton.2 rfl) (.inl rfl) fun u hu hne =>
      absurd (mem_singleton.1 hu) hne
  | @next s₀ s' states store blockID header response hsaved happlies ih =>
    obtain ⟨rfl, rfl⟩ := List.cons.inj hlist
    obtain ⟨g, hl, hr⟩ := ih rfl
    have hl' := hl.next happlies
    refine ⟨g, hl', ?_⟩
    rw [(hl'.sound s mem_cons_self).final_save]
    refine .saved hl' mem_cons_self (.inr hr.initial) fun u hu hne => ?_
    have hu' := (mem_cons.1 hu).resolve_left hne
    exact ⟨hr.validators u hu', hr.params u hu'⟩
  | @again t states store hsaved ht ih =>
    subst hlist
    obtain ⟨g, hl, hr⟩ := ih rfl
    refine ⟨g, hl, ?_⟩
    rw [(hl.sound t ht).final_save]
    exact .saved hl ht (.inr hr.initial) fun u hu _ => ⟨hr.validators u hu, hr.params u hu⟩

theorem Saved.sound (h : Saved crypto (s :: states) store) : ∀ t ∈ s :: states, t.Sound crypto := by
  obtain ⟨g, hl, -⟩ := h.recorded
  exact hl.sound

end Records

end CelestiaCore.SM
