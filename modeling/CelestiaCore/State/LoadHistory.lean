import CelestiaCore.Program.Fallible
import CelestiaCore.State.History

/-!
# Loading the validators and the parameters of a height

The records of a chain lead `LoadValidators` and `LoadConsensusParams` to what was in force.
-/
namespace CelestiaCore.SM
open Wire Program StateStore

theorem checkpoint_dvd (height : Int) :
    (height - height % valSetCheckpointInterval) % valSetCheckpointInterval = 0 := by
  rw [valSetCheckpointInterval]
  omega

/-- Where the full set is for a height that is neither a checkpoint nor that of the change. -/
theorem lastStoredHeightFor_spec {height changed : Int}
    (hlt : changed < height) (hcheck : height % valSetCheckpointInterval ≠ 0) :
    changed ≤ lastStoredHeightFor height changed ∧ 0 < height - lastStoredHeightFor height changed ∧
      height - lastStoredHeightFor height changed ≤ maxInt32 ∧
      (lastStoredHeightFor height changed = changed ∨
        lastStoredHeightFor height changed % valSetCheckpointInterval = 0) := by
  have hdvd := checkpoint_dvd height
  rw [lastStoredHeightFor]
  rcases max_choice (height - height % valSetCheckpointInterval) changed with hmax | hmax
  · have hle := le_max_right (height - height % valSetCheckpointInterval) changed
    rw [hmax] at hle ⊢
    rw [valSetCheckpointInterval] at *
    rw [maxInt32]
    refine ⟨hle, by omega, by omega, .inr hdvd⟩
  · have hle := le_max_left (height - height % valSetCheckpointInterval) changed
    rw [hmax] at hle ⊢
    rw [valSetCheckpointInterval] at *
    rw [maxInt32]
    refine ⟨le_rfl, by omega, by omega, .inl rfl⟩

section Load
variable {crypto : Crypto} {store : StateStore} {height : Int}

theorem loadValidators_full {vals : CachedValidatorSet} {changed : Int}
    (hrecord : store.validatorsInfo height = some ⟨some vals.toValidatorSet, changed⟩)
    (hsound : vals.Sound crypto) : store.loadValidators crypto height = .ok vals := by
  simp only [loadValidators, hrecord, hsound.fromProto_eq]

theorem loadValidators_pointer {vals : CachedValidatorSet} {changed changed' : Int}
    (hrecord : store.validatorsInfo height = some ⟨none, changed⟩)
    (hstored : store.validatorsInfo (lastStoredHeightFor height changed) =
      some ⟨some vals.toValidatorSet, changed'⟩) (hsound : vals.Sound crypto)
    (hpos : 0 < height - lastStoredHeightFor height changed)
    (hle : height - lastStoredHeightFor height changed ≤ maxInt32) :
    ∃ vals', store.loadValidators crypto height = .ok vals' ∧ identities vals' =
      identities vals := by
  obtain ⟨vals', hinc, hsound', hid⟩ := hsound.increments hpos
  refine ⟨vals', ?_, hid⟩
  have hrange : ¬(maxInt32 < height - lastStoredHeightFor height changed ∨
      height - lastStoredHeightFor height changed < -maxInt32 - 1) := by
    rw [maxInt32] at hle ⊢
    omega
  simp only [loadValidators, hrecord, hstored, Option.bind_some, hsound.fromProto_eq,
    bind, Except.bind, if_neg hrange, hinc, hsound'.toProto_eq, hsound'.fromProto_eq]

end Load

section History
variable {crypto : Crypto} {g s t : State} {states : List State} {store : StateStore}

theorem Genesis.identities_eq (h : Genesis crypto g) :
    identities g.nextValidators = identities g.validators := by
  obtain ⟨vals, hne, hkeys, hvals⟩ := h.validators
  exact (genesisValidators_sound hne hkeys hvals).2.2

section Member
variable (hl : Linked crypto g s states) (hr : Recorded g states store) (ht : t ∈ states)
include hl hr ht

theorem Linked.stored_set {height : Int} (hchanged : t.lastHeightValidatorsChanged ≤ height)
    (hlt : height ≤ t.nextHeight)
    (hfull : height = t.lastHeightValidatorsChanged ∨ height % valSetCheckpointInterval = 0) :
    ∃ vals changed, store.validatorsInfo height =
      some ⟨some vals.toValidatorSet, changed⟩ ∧ vals.Sound crypto ∧
      identities vals = identities t.nextValidators := by
  have htsound := hl.sound t ht
  have hinitial : g.initialHeight ≤ t.lastHeightValidatorsChanged :=
    hl.initialHeight t ht ▸ htsound.validatorsChanged.1
  by_cases hfirst : height = g.initialHeight
  · -- the set of the initial height
    have hgn := hl.genesis.nextHeight_eq
    have hids := (hl.validators t ht g hl.first (by omega) (by omega)).1
    refine ⟨g.validators, g.initialHeight, ?_, (hl.sound g hl.first).validators,
      hl.genesis.identities_eq.symm.trans hids⟩
    rw [hfirst]
    exact hr.initial
  · have hle := hl.nextHeight_le t ht
    obtain ⟨u, hu, hheight⟩ := hl.covers (height - 1) (by omega) (by omega)
    have huh : u.nextHeight + 1 = height := by omega
    obtain ⟨hids, hchg⟩ := hl.validators t ht u hu (by omega) (by omega)
    refine ⟨u.nextValidators, u.lastHeightValidatorsChanged, ?_, (hl.sound u hu).nextValidators, hids⟩
    rw [← huh, hr.validators u hu, validatorsRecord, if_pos]
    rw [huh, hchg]
    exact hfull

theorem Linked.loadValidators_next :
    ∃ vals, store.loadValidators crypto (t.nextHeight + 1) = .ok vals ∧
      identities vals = identities t.nextValidators := by
  have hrecord := hr.validators t ht
  have hchanged := (hl.sound t ht).validatorsChanged.2
  by_cases hfull : t.nextHeight + 1 = t.lastHeightValidatorsChanged ∨
      (t.nextHeight + 1) % valSetCheckpointInterval = 0
  · rw [validatorsRecord, if_pos hfull] at hrecord
    exact ⟨t.nextValidators, loadValidators_full hrecord (hl.sound t ht).nextValidators, rfl⟩
  rw [validatorsRecord, if_neg hfull] at hrecord
  obtain ⟨hne, hcheck⟩ := not_or.1 hfull
  obtain ⟨hlo, hpos, hle, hwhich⟩ :=
    lastStoredHeightFor_spec (lt_of_le_of_ne hchanged (Ne.symm hne)) hcheck
  obtain ⟨vals, changed, hstored, hvals, hids⟩ :=
    hl.stored_set hr ht hlo (by omega) hwhich
  obtain ⟨vals', hload, hids'⟩ := loadValidators_pointer hrecord hstored hvals hpos hle
  exact ⟨vals', hload, hids'.trans hids⟩

theorem Linked.loadValidators_current :
    ∃ vals, store.loadValidators crypto t.nextHeight = .ok vals ∧
      identities vals = identities t.validators := by
  rcases hl.before t ht with rfl | ⟨u, hu, hheight, hvals⟩
  · rw [hl.genesis.nextHeight_eq]
    exact ⟨t.validators, loadValidators_full hr.initial (hl.sound t ht).validators, rfl⟩
  · rw [← hheight, hvals]
    exact hl.loadValidators_next hr hu

theorem Linked.loadConsensusParams_eq :
    store.loadConsensusParams t.nextHeight = .ok t.consensusParams := by
  have hrecord := hr.params t ht
  by_cases hfull : t.lastHeightConsensusParamsChanged = t.nextHeight
  · simp only [loadConsensusParams, hrecord, paramsRecord, newConsensusParamsInfo,
      if_pos hfull]
  have hchanged := (hl.sound t ht).paramsChanged
  have hinitial := hl.initialHeight t ht
  have hle := hl.nextHeight_le t ht
  obtain ⟨u, hu, hheight⟩ := hl.covers t.lastHeightConsensusParamsChanged (by omega) (by omega)
  obtain ⟨hparams, hchg⟩ := hl.params t ht u hu (by omega) (by omega)
  have hrecord' := hr.params u hu
  rw [hheight] at hrecord'
  simp only [loadConsensusParams, hrecord, paramsRecord, newConsensusParamsInfo,
    if_neg hfull, hrecord', hchg, hheight, if_true, hparams]

end Member

def sampleCrypto : Crypto := ⟨fun pk => pk.bytes.take 20, fun _ _ _ => true⟩

def sampleKey (n : UInt8) : PubKey := ⟨.ed25519, List.replicate 32 n⟩

def sampleDoc : GenesisDoc := ⟨0, [99], 5, .default, [(sampleKey 1, 10), (sampleKey 2, 7)], []⟩

theorem genesis_of_sample {doc : GenesisDoc} {g : State} (hinitial : 1 ≤ doc.initialHeight)
    (hvals : doc.validators = sampleDoc.validators)
      (hg : makeGenesisState sampleCrypto doc = .ok g) :
    Genesis sampleCrypto g := by
  refine genesis_makeGenesisState hinitial ?_ ?_ hg
  · rw [hvals]
    decide
  · rw [hvals]
    simp [sampleDoc, HasKeySize, sampleKey, KeyType.pubKeySize]

def idleHeader (height : Int) : Header :=
  ⟨blockProtocol, 1, [], Int64.ofInt height, 0, default, [], [], [], [], [], [], [], [], []⟩

def idleResponse : ResponseFinalizeBlock := ⟨[], none, [], [], .zero⟩

/-- The second validator gets more power. -/
def raisingResponse : ResponseFinalizeBlock :=
  { idleResponse with validatorUpdates := [(sampleKey 2, 9)] }

/-- The state of a chain after blocks with some responses, the newest first. -/
def sampleState (doc : GenesisDoc) : List ResponseFinalizeBlock → State
  | [] => (makeGenesisState sampleCrypto doc).toOption.getD .empty
  | response :: rest => (executed sampleCrypto (sampleState doc rest) default
      (idleHeader (sampleState doc rest).nextHeight) response).toOption.getD .empty

theorem sampleState_genesis {doc : GenesisDoc} (hinitial : 1 ≤ doc.initialHeight)
    (hvals : doc.validators = sampleDoc.validators)
    (hok : (makeGenesisState sampleCrypto doc).toOption.isSome = true) :
    Genesis sampleCrypto (sampleState doc []) :=
  genesis_of_sample hinitial hvals (eq_ok_of_isSome hok)

theorem sampleState_applies {doc : GenesisDoc} {rest : List ResponseFinalizeBlock}
    {response : ResponseFinalizeBlock} (hkeys : ∀ u ∈ response.validatorUpdates, HasKeySize u.1)
    (hheight : (idleHeader (sampleState doc rest).nextHeight).height.toInt =
      (sampleState doc rest).nextHeight)
    (hok : (executed sampleCrypto (sampleState doc rest) default
      (idleHeader (sampleState doc rest).nextHeight) response).toOption.isSome = true) :
    Applies sampleCrypto (sampleState doc rest) default
      (idleHeader (sampleState doc rest).nextHeight)
      response (sampleState doc (response :: rest)) :=
  ⟨hheight, hkeys, eq_ok_of_isSome hok⟩

/-- The states after block 5, which raises a power, and block 6, newest first. -/
def raisedStates : List State :=
  [sampleState sampleDoc [idleResponse, raisingResponse], sampleState sampleDoc [raisingResponse],
    sampleState sampleDoc []]

def raisedStore : StateStore := raisedStates.foldr
    (fun s store => (StateStore.save s).final store) .empty

theorem saved_raised : Saved sampleCrypto raisedStates raisedStore :=
  ((Saved.genesis (sampleState_genesis (by decide) rfl (by decide +kernel))).next
    (sampleState_applies (by simp [raisingResponse, HasKeySize, sampleKey, KeyType.pubKeySize])
      (by decide +kernel) (by decide +kernel))).next
    (sampleState_applies nofun (by decide +kernel) (by decide +kernel))

end History

end CelestiaCore.SM
