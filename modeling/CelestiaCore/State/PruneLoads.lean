import CelestiaCore.State.Prune

/-!
# What pruning keeps

The checkpoint that is kept is the one before the prune height and not the one before the evidence
threshold, so the validators at the threshold are lost when the two differ.
-/
namespace CelestiaCore.SM
open Wire Program StateStore List Option

/-- The checks of `PruneStates` have passed. -/
structure Prunes (store : StateStore) (first upto threshold : Int) (valInfo : ValidatorsInfo)
    (paramsInfo : ConsensusParamsInfo) : Prop where
  first_pos : 0 < first
  first_lt : first < upto
  valInfo : store.validatorsInfo (min upto threshold) = some valInfo
  paramsInfo : store.consensusParamsInfo upto = some paramsInfo

section Prunes
variable {crypto : Crypto} {g s : State} {states : List State} {store : StateStore}
  {first upto threshold : Int} {valInfo : ValidatorsInfo} {paramsInfo : ConsensusParamsInfo}

theorem Prunes.keepsFull (hp : Prunes store first upto threshold valInfo paramsInfo)
    (hr : Records g states store) (hl : Linked crypto g s states) :
    KeepsFull store (keepValsOf valInfo upto) (keepParamsOf paramsInfo) := by
  constructor
  · intro h hmem r hrec
    rw [keepValsOf] at hmem
    split at hmem
    · obtain ⟨hinit, hle, hfull, -⟩ := hr.validatorsInfo_spec hl hrec
      obtain ⟨-, hmle, -⟩ := hr.validatorsInfo_spec hl hp.valInfo
      have hset : h = r.lastHeightChanged ∨ h % valSetCheckpointInterval = 0 := by
        have hchanged : h = valInfo.lastHeightChanged → h = r.lastHeightChanged := by
          intro heq
          have hco := hr.validatorsInfo_coherent hl hrec hp.valInfo heq.ge (heq ▸ hmle)
          exact heq.trans hco.symm
        rcases mem_cons.1 hmem with heq | hmem'
        · exact .inl (hchanged heq)
        have heq := mem_singleton.1 hmem'
        rw [lastStoredHeightFor] at heq
        rcases max_choice (upto - upto % valSetCheckpointInterval) valInfo.lastHeightChanged
          with hmax | hmax
        · refine .inr ?_
          rw [heq, hmax]
          exact checkpoint_dvd upto
        · exact .inl (hchanged (heq.trans hmax))
      obtain ⟨vals, hvals, -⟩ := hfull hset
      rw [hvals]
      rfl
    · exact absurd hmem not_mem_nil
  · intro h hmem r hrec
    rw [keepParamsOf] at hmem
    split at hmem
    · have heq := mem_singleton.1 hmem
      have hle := (hr.params_spec hl hp.paramsInfo).1
      have hco := hr.params_coherent hl hrec hp.paramsInfo heq.ge (heq ▸ hle)
      exact (hr.params_spec hl hrec).2.2 (heq.trans hco.symm)
    · exact absurd hmem not_mem_nil

theorem pruneStates_apply (crypto : Crypto) (store : StateStore) (first upto threshold : Int) :
    pruneStates crypto first upto threshold store =
      (if first ≤ 0 ∨ upto ≤ 0 then
        Durable.fail s!"from height {first} and to height {upto} must be greater than 0"
      else if upto ≤ first then
        Durable.fail s!"from height {first} must be lower than to height {upto}"
      else pruneRecords crypto store first upto threshold) store := rfl

theorem Prunes.pruneStates_eq (hp : Prunes store first upto threshold valInfo paramsInfo) :
    pruneStates crypto first upto threshold store =
      pruneLoop crypto first threshold (keepValsOf valInfo upto)
        (keepParamsOf paramsInfo) (upto - first).toNat 0 [] store := by
  have hpos := hp.first_pos
  have hlt := hp.first_lt
  rw [pruneStates_apply, if_neg (by omega), if_neg (by omega), pruneRecords, hp.valInfo,
    hp.paramsInfo]

theorem pruneStates_cases (crypto : Crypto) (store : StateStore) (first upto threshold : Int) :
    (∃ valInfo paramsInfo, Prunes store first upto threshold valInfo paramsInfo) ∨
      ∃ err, pruneStates crypto first upto threshold store = Durable.fail err store := by
  rw [pruneStates_apply]
  split
  · exact .inr ⟨_, rfl⟩
  split
  · exact .inr ⟨_, rfl⟩
  rw [pruneRecords]
  cases hv : store.validatorsInfo (min upto threshold) with
  | none => exact .inr ⟨_, rfl⟩
  | some valInfo =>
    cases hp : store.consensusParamsInfo upto with
    | none => exact .inr ⟨_, rfl⟩
    | some paramsInfo => exact .inl ⟨valInfo, paramsInfo, by omega, by omega, hv, hp⟩

theorem Prunes.spec (hp : Prunes store first upto threshold valInfo paramsInfo)
    (hr : Records g states store) (hl : Linked crypto g s states) :
    Durable.Safe (fun t => ∃ k, first ≤ k ∧ k ≤ upto ∧ t = store.deleted
        (keepValsOf valInfo upto) (keepParamsOf paramsInfo) upto threshold k)
      (pruneStates crypto first upto threshold) store
      (fun _ t => t = store.deleted (keepValsOf valInfo upto)
        (keepParamsOf paramsInfo) upto threshold first) ∧
    (KeepsAll store (keepValsOf valInfo upto) (keepParamsOf paramsInfo) first →
      ∃ n, (pruneStates crypto first upto threshold store).result = .ok n) := by
  have hlt := hp.first_lt
  have hheight : first + ((upto - first).toNat : Int) = upto := by omega
  obtain ⟨hsafe, hends⟩ := pruneLoop_spec crypto threshold (hp.keepsFull hr hl)
    (upto - first).toNat 0 [] store upto hheight.le le_rfl deleted_upto.symm
    (by rw [hheight]; exact deleted_upto.symm)
  constructor
  · exact Durable.Safe.congr hp.pruneStates_eq hsafe
  · intro hall
    rw [hp.pruneStates_eq]
    exact hends hall

theorem pruneStates_crash (hr : Records g states store) (hl : Linked crypto g s states)
    {store' : StateStore}
    (hcrash : Durable.Crash (pruneStates crypto first upto threshold) store store') :
    store' = store ∨ ∃ valInfo paramsInfo k, Prunes store first upto threshold valInfo paramsInfo ∧
      first ≤ k ∧ store' = store.deleted (keepValsOf valInfo upto)
        (keepParamsOf paramsInfo) upto threshold k := by
  refine hcrash.imp_right fun hmem => ?_
  rcases pruneStates_cases crypto store first upto threshold with ⟨valInfo, paramsInfo, hp⟩ |
    ⟨err, herr⟩
  · obtain ⟨k, hk, -, heq⟩ := (hp.spec hr hl).1.trail store' hmem
    exact ⟨valInfo, paramsInfo, k, hp, hk, heq⟩
  · rw [herr] at hmem
    exact absurd hmem not_mem_nil

theorem Records.deleted (hr : Records g states store) (keepVals keepParams : List Int)
    (upto threshold k : Int) :
    Records g states (store.deleted keepVals keepParams upto threshold k) where
  validators := fun h r hrec => hr.validators h r (ite_none_left_eq_some.1 hrec).2
  params := fun h r hrec => hr.params h r (ite_none_left_eq_some.1 hrec).2

/-- Every state of a chain is saved in turn, may be saved again, and in between states are pruned,
where a prune may be stopped after any flush. -/
inductive Kept (crypto : Crypto) : List State → StateStore → Prop where
  | genesis {g : State} (h : Genesis crypto g) : Kept crypto [g] ((save g).final .empty)
  | next {s s' : State} {states : List State} {store : StateStore} {blockID : BlockID}
      {header : Header} {response : ResponseFinalizeBlock} (hkept : Kept crypto (s :: states) store)
      (happlies : Applies crypto s blockID header response s') :
      Kept crypto (s' :: s :: states) ((save s').final store)
  | again {t : State} {states : List State} {store : StateStore} (hkept : Kept crypto states store)
      (ht : t ∈ states) : Kept crypto states ((save t).final store)
  | prune {states : List State} {store store' : StateStore} (hkept : Kept crypto states store)
      (first upto threshold : Int)
      (hcrash : Durable.Crash (pruneStates crypto first upto threshold) store store') :
      Kept crypto states store'

theorem Kept.records (h : Kept crypto (s :: states) store) :
    ∃ g, Linked crypto g s (s :: states) ∧ Records g (s :: states) store := by
  generalize hlist : s :: states = l at h
  induction h generalizing s states with
  | @genesis g h =>
    obtain ⟨rfl, rfl⟩ := List.cons.inj hlist
    have hempty : Records s [s] .empty :=
      ⟨fun h r hrec => absurd hrec (by simp [empty]), fun h r hrec => absurd hrec (by simp [empty])⟩
    refine ⟨s, h.linked, ?_⟩
    rw [h.sound.final_save]
    exact hempty.saved h.linked mem_cons_self
  | @next s₀ s' states store blockID header response hkept happlies ih =>
    obtain ⟨rfl, rfl⟩ := List.cons.inj hlist
    obtain ⟨g, hl, hr⟩ := ih rfl
    have hl' := hl.next happlies
    refine ⟨g, hl', ?_⟩
    rw [(hl'.sound s mem_cons_self).final_save]
    exact (hr.cons s).saved hl' mem_cons_self
  | @again t states store hkept ht ih =>
    subst hlist
    obtain ⟨g, hl, hr⟩ := ih rfl
    refine ⟨g, hl, ?_⟩
    rw [(hl.sound t ht).final_save]
    exact hr.saved hl ht
  | @prune states store store' hkept first upto threshold hcrash ih =>
    subst hlist
    obtain ⟨g, hl, hr⟩ := ih rfl
    refine ⟨g, hl, ?_⟩
    rcases pruneStates_crash hr hl hcrash with rfl | ⟨_, _, k, -, -, rfl⟩
    · exact hr
    · exact hr.deleted _ _ _ _ _

end Prunes

def checkpoint (h : Int) : Int := h - h % valSetCheckpointInterval

theorem checkpoint_spec (h : Int) : checkpoint h ≤ h ∧ h < checkpoint h + valSetCheckpointInterval ∧
    checkpoint h % valSetCheckpointInterval = 0 := by
  rw [checkpoint, valSetCheckpointInterval]
  omega

theorem checkpoint_eq {h h' : Int} (hlo : checkpoint h' ≤ h) (hhi : h ≤ h') :
    checkpoint h = checkpoint h' := by
  rw [checkpoint, checkpoint, valSetCheckpointInterval] at *
  omega

theorem checkpoint_mono {h h' : Int} (hle : h ≤ h') : checkpoint h ≤ checkpoint h' := by
  rw [checkpoint, checkpoint, valSetCheckpointInterval]
  omega

/-- All loads from the threshold on that succeed in `store` succeed in `store'`, with the same
validators and parameters. -/
structure KeepsLoads (crypto : Crypto) (store store' : StateStore) (upto threshold : Int) :
    Prop where
  validators : ∀ h vals, min upto threshold ≤ h → store.loadValidators crypto h = .ok vals →
    store'.loadValidators crypto h = .ok vals
  params : ∀ h params, upto ≤ h → store.loadConsensusParams h = .ok params →
    store'.loadConsensusParams h = .ok params

/-- Where the record at the threshold points to the checkpoint before it, that is also the
checkpoint before the prune height, or is not pruned. -/
def CheckpointKept (store : StateStore) (first upto threshold : Int) : Prop :=
  ∀ info, store.validatorsInfo (min upto threshold) = some info → info.validatorSet = none →
    info.lastHeightChanged < checkpoint (min upto threshold) →
    checkpoint (min upto threshold) < checkpoint upto →
    store.validatorsInfo (checkpoint (min upto threshold)) ≠ none →
    checkpoint (min upto threshold) < first

section Loads
variable {crypto : Crypto} {g s : State} {states : List State} {store store' : StateStore}
  {first upto threshold h : Int} {valInfo : ValidatorsInfo} {paramsInfo : ConsensusParamsInfo}

theorem loadValidators_congr {vals : CachedValidatorSet}
    (hinfo : store'.validatorsInfo h = store.validatorsInfo h)
    (hstored : ∀ r r', store.validatorsInfo h = some r → r.validatorSet = none →
      store.validatorsInfo (lastStoredHeightFor h r.lastHeightChanged) = some r' →
      store'.validatorsInfo (lastStoredHeightFor h r.lastHeightChanged) = some r')
    (hload : store.loadValidators crypto h = .ok vals) :
    store'.loadValidators crypto h = .ok vals := by
  rw [← hload, loadValidators, loadValidators, hinfo]
  rw [loadValidators] at hload
  cases hrec : store.validatorsInfo h with
  | none => rfl
  | some r =>
    cases hset : r.validatorSet with
    | some vp => simp only [hset]
    | none =>
      simp only [hrec, hset] at hload ⊢
      cases hrec' : store.validatorsInfo
          (lastStoredHeightFor h r.lastHeightChanged) with
      | none => simp [hrec'] at hload
      | some r' => rw [hstored r r' hrec hset hrec']

theorem loadConsensusParams_congr {params : ConsensusParams}
    (hinfo : store'.consensusParamsInfo h = store.consensusParamsInfo h)
    (hstored : ∀ r, store.consensusParamsInfo h = some r → r.consensusParams = none →
      store'.consensusParamsInfo r.lastHeightChanged =
        store.consensusParamsInfo r.lastHeightChanged)
    (hload : store.loadConsensusParams h = .ok params) :
    store'.loadConsensusParams h = .ok params := by
  rw [← hload, loadConsensusParams, loadConsensusParams, hinfo]
  cases hrec : store.consensusParamsInfo h with
  | none => rfl
  | some r =>
    cases hset : r.consensusParams with
    | some p => simp only [hset]
    | none => simp only [hset, hstored r hrec hset]

section
variable (hp : Prunes store first upto threshold valInfo paramsInfo) (hr : Records g states store)
  (hl : Linked crypto g s states)
include hp hr hl

theorem Prunes.stored_kept (hcond : CheckpointKept store first upto threshold)
    {r r' : ValidatorsInfo} (hle : min upto threshold ≤ h) (hrec : store.validatorsInfo h = some r)
    (hrec' : store.validatorsInfo (lastStoredHeightFor h r.lastHeightChanged) = some r')
    (hlt : lastStoredHeightFor h r.lastHeightChanged < min upto threshold)
    (hfirst : first ≤ lastStoredHeightFor h r.lastHeightChanged) :
    lastStoredHeightFor h r.lastHeightChanged ∈ keepValsOf valInfo upto := by
  have hstored : lastStoredHeightFor h r.lastHeightChanged =
    max (checkpoint h) r.lastHeightChanged := rfl
  have hcp := le_max_left (checkpoint h) r.lastHeightChanged
  have hchg := le_max_right (checkpoint h) r.lastHeightChanged
  rw [← hstored] at hcp hchg
  have hco := hr.validatorsInfo_coherent hl hp.valInfo hrec (hchg.trans hlt.le) hle
  have hcheck : checkpoint (min upto threshold) = checkpoint h :=
    checkpoint_eq (hcp.trans hlt.le) hle
  -- the record at the threshold is itself a pointer
  have hmset : valInfo.validatorSet = none := by
    apply (hr.validatorsInfo_spec hl hp.valInfo).2.2.2
    rintro (heq | hzero)
    · omega
    · have := checkpoint_spec h
      rw [checkpoint, hzero] at hcheck
      omega
  rw [keepValsOf, hmset, if_pos isNone_none, hco]
  rcases max_choice (checkpoint h) r.lastHeightChanged with hmax | hmax
  · by_cases hone : r.lastHeightChanged = checkpoint h
    · rw [hstored, hmax, hone]
      exact mem_cons_self
    · have hup : checkpoint upto = checkpoint h := by
        rw [← hcheck]
        by_contra hne
        have hlt' := lt_of_le_of_ne (checkpoint_mono (min_le_left upto threshold)) (Ne.symm hne)
        have := hcond valInfo hp.valInfo hmset (by omega) hlt' (by
          rw [hcheck, ← hmax, ← hstored, hrec']
          exact some_ne_none r')
        omega
      refine mem_cons_of_mem _ (mem_singleton.2 ?_)
      rw [hstored, ← hup]
      rfl
  · rw [hstored, hmax]
    exact mem_cons_self

theorem Prunes.keepsLoads (hcond : CheckpointKept store first upto threshold)
    {k : Int} (hk : first ≤ k) : KeepsLoads crypto store (store.deleted (keepValsOf valInfo upto)
      (keepParamsOf paramsInfo) upto threshold k) upto threshold := by
  constructor
  · intro h vals hle hload
    refine loadValidators_congr (if_neg fun hh => by omega) ?_ hload
    intro r r' hrec _ hrec'
    rw [← hrec']
    refine if_neg fun hh => hh.2.2.2 ?_
    exact hp.stored_kept hr hl hcond hle hrec hrec' (by omega) (by omega)
  · intro h params hle hload
    refine loadConsensusParams_congr (if_neg fun hh => by omega) ?_ hload
    intro r hrec hset
    refine if_neg fun hh => hh.2.2 ?_
    have hco := hr.params_coherent hl hp.paramsInfo hrec hh.2.1.le hle
    have hnone : paramsInfo.consensusParams = none := by
      have hiff := (hr.params_spec hl hp.paramsInfo).2
      by_contra hne
      have := hiff.1 (isSome_iff_ne_none.2 hne)
      omega
    rw [keepParamsOf, hnone, if_pos isNone_none, hco]
    exact mem_cons_self

theorem Prunes.loses_threshold (hset : valInfo.validatorSet = none)
    (hchanged : valInfo.lastHeightChanged < checkpoint (min upto threshold))
    (hcp : checkpoint (min upto threshold) < checkpoint upto)
    (hthere : store.validatorsInfo (checkpoint (min upto threshold)) ≠ none)
    (hfirst : first ≤ checkpoint (min upto threshold)) :
    (∃ vals, store.loadValidators crypto (min upto threshold) = .ok vals) ∧
    ∀ vals, (store.deleted (keepValsOf valInfo upto)
      (keepParamsOf paramsInfo) upto threshold first).loadValidators crypto
        (min upto threshold) ≠ .ok vals := by
  have hnot : ¬(min upto threshold = valInfo.lastHeightChanged ∨
      min upto threshold % valSetCheckpointInterval = 0) := by
    intro hfull
    obtain ⟨vals, hvals, -⟩ := (hr.validatorsInfo_spec hl hp.valInfo).2.2.1 hfull
    rw [hset] at hvals
    cases hvals
  obtain ⟨hne, hcheck⟩ := not_or.1 hnot
  have hstored : lastStoredHeightFor (min upto threshold) valInfo.lastHeightChanged =
    checkpoint (min upto threshold) := max_eq_left hchanged.le
  have hlt : checkpoint (min upto threshold) < min upto threshold := by
    have := checkpoint_spec (min upto threshold)
    refine lt_of_le_of_ne this.1 fun heq => hcheck ?_
    rw [← heq]
    exact this.2.2
  have hvalInfo : valInfo = ⟨none, valInfo.lastHeightChanged⟩ := by rw [← hset]
  constructor
  · obtain ⟨r, hrec⟩ := ne_none_iff_exists'.1 hthere
    obtain ⟨vals, hvals, hvs⟩ := (hr.validatorsInfo_spec hl hrec).2.2.1
      (.inr (checkpoint_spec _).2.2)
    obtain ⟨-, hpos, hle, -⟩ := lastStoredHeightFor_spec (hchanged.trans hlt) hcheck
    have hthere' : store.validatorsInfo (lastStoredHeightFor (min upto threshold)
        valInfo.lastHeightChanged) = some ⟨some vals.toValidatorSet, r.lastHeightChanged⟩ := by
      rw [hstored, hrec, ← hvals]
    obtain ⟨vals', hload, -⟩ := loadValidators_pointer (hvalInfo ▸ hp.valInfo) hthere' hvs hpos hle
    exact ⟨vals', hload⟩
  · intro vals hload
    have hkeep : checkpoint (min upto threshold) ∉ keepValsOf valInfo upto := by
      have hup : checkpoint upto ≤ lastStoredHeightFor upto valInfo.lastHeightChanged :=
        le_max_left _ _
      rw [keepValsOf, hset, if_pos isNone_none, mem_cons, mem_singleton]
      omega
    have hrec : (store.deleted (keepValsOf valInfo upto)
        (keepParamsOf paramsInfo) upto threshold first).validatorsInfo
          (min upto threshold) = some valInfo := by
      rw [← hp.valInfo]
      exact if_neg fun hh => by omega
    have hgone : (store.deleted (keepValsOf valInfo upto)
        (keepParamsOf paramsInfo) upto threshold first).validatorsInfo
          (checkpoint (min upto threshold)) = none := if_pos ⟨hfirst, by omega, by omega, hkeep⟩
    simp [loadValidators, hrec, hset, hstored, hgone] at hload

end

theorem Saved.kept {states : List State} {store : StateStore} (h : Saved crypto states store) :
    Kept crypto states store := by
  induction h with
  | genesis h => exact .genesis h
  | next hsaved happlies ih => exact .next ih happlies
  | again hsaved ht ih => exact .again ih ht

/-- In a store that was saved and pruned in any way, a prune keeps the loads, wherever it is
stopped, if the checkpoint before the threshold is kept; if it returns, only then. -/
theorem prune_keeps_loads_iff (crypto : Crypto) (s : State) (states : List State)
    (store : StateStore)
    (hkept : Kept crypto (s :: states) store) (first upto threshold : Int) :
    (CheckpointKept store first upto threshold → ∀ store',
      Durable.Crash (StateStore.pruneStates crypto first upto threshold) store store' →
      KeepsLoads crypto store store' upto threshold) ∧
    ∀ n, (StateStore.pruneStates crypto first upto threshold store).result = .ok n →
      ((∀ store', Durable.Crash (StateStore.pruneStates crypto first upto threshold) store store' →
        KeepsLoads crypto store store' upto threshold) ↔
          CheckpointKept store first upto threshold) := by
  obtain ⟨g, hl, hr⟩ := hkept.records
  have hkeeps : CheckpointKept store first upto threshold → ∀ store',
      Durable.Crash (pruneStates crypto first upto threshold) store store' →
      KeepsLoads crypto store store' upto threshold := by
    intro hcond store' hcrash
    rcases pruneStates_crash hr hl hcrash with rfl | ⟨_, _, k, hp, hk, rfl⟩
    · exact ⟨fun _ _ _ h => h, fun _ _ _ h => h⟩
    · exact hp.keepsLoads hr hl hcond hk
  refine ⟨hkeeps, fun n hok => ⟨fun hall => ?_, hkeeps⟩⟩
  rcases pruneStates_cases crypto store first upto threshold with ⟨_, _, hp⟩ | ⟨err, herr⟩
  · have hfinal := (hp.spec hr hl).1.returns n hok
    have hloads := hfinal ▸ hall _ Durable.crash_final
    intro info hinfo hset hchanged hcp hthere
    obtain rfl := some.inj (hp.valInfo.symm.trans hinfo)
    by_contra hfirst
    obtain ⟨⟨vals, hload⟩, hlost⟩ :=
      hp.loses_threshold hr hl hset hchanged hcp hthere (not_lt.1 hfirst)
    exact hlost vals (hloads.validators _ vals le_rfl hload)
  · rw [herr] at hok
    cases hok

/-- The states below the height of the new power are pruned, and the loads from there on kept. -/
theorem prune_keeps_loads_raised : raisedStore.validatorsInfo 6 ≠ none ∧
      ((StateStore.pruneStates sampleCrypto 5 7 7).final raisedStore).validatorsInfo 6 = none ∧
      ∀ store', Durable.Crash (StateStore.pruneStates sampleCrypto 5 7 7) raisedStore store' →
        KeepsLoads sampleCrypto raisedStore store' 7 7 := by
  refine ⟨by decide +kernel, by decide +kernel, (prune_keeps_loads_iff sampleCrypto _ _ _
    saved_raised.kept 5 7 7).1 ?_⟩
  intro info hinfo hset
  have hfull : (raisedStore.validatorsInfo 7).any (·.validatorSet.isSome) = true := by
    decide +kernel
  rw [show raisedStore.validatorsInfo 7 = some info from hinfo, any_some, hset] at hfull
  cases hfull

end Loads

/-! A chain without any update, in which a checkpoint falls between the threshold and the prune
height. -/

section Idle
variable {crypto : Crypto} {g s : State}

theorem State.Sound.applies_idle (hs : s.Sound crypto) (hlt : s.nextHeight < 2 ^ 63) :
    ∃ s', Applies crypto s default (idleHeader s.nextHeight) idleResponse s' ∧
      s'.lastHeightValidatorsChanged = s.lastHeightValidatorsChanged ∧
      s'.lastHeightConsensusParamsChanged = s.lastHeightConsensusParamsChanged := by
  obtain ⟨vals, hinc, -, -⟩ := hs.nextValidators.increments Int.one_pos
  have hpos := hs.initial_pos.trans hs.initial_le
  have hheight : (idleHeader s.nextHeight).height.toInt = s.nextHeight :=
    Int64.toInt_ofInt_of_le (by omega) hlt
  have hvals : nextValSet s.nextValidators [] = .ok vals := hinc
  have hok : ∃ s', executed crypto s default (idleHeader s.nextHeight) idleResponse = .ok s' := by
    simp only [executed, updateState, idleResponse, map_nil, hvals, nextConsensusParams, ok_bind,
      Except.map]
    exact ⟨_, rfl⟩
  obtain ⟨s', hs'⟩ := hok
  have hu := executed_eq_ok hs'
  exact ⟨s', ⟨hheight, nofun, hs'⟩, hu.validatorsChanged,
    hu.paramsChanged⟩

theorem Genesis.idle (hg : Genesis crypto g) (n : Nat) (hn : g.initialHeight + n < 2 ^ 63) :
    ∃ s states store, Saved crypto (s :: states) store ∧ g ∈ s :: states ∧
      s.nextHeight = g.initialHeight + n ∧ ∀ t ∈ s :: states,
        t.lastHeightValidatorsChanged = g.initialHeight ∧
        t.lastHeightConsensusParamsChanged = g.initialHeight := by
  induction n with
  | zero =>
    refine ⟨g, [], _, .genesis hg, mem_cons_self, ?_, fun t ht => ?_⟩
    · rw [hg.nextHeight_eq, Nat.cast_zero, add_zero]
    · rw [mem_singleton.1 ht]
      exact ⟨hg.validatorsChanged, hg.paramsChanged⟩
  | succ n ih =>
    push_cast at hn ⊢
    obtain ⟨s, states, store, hsaved, hfirst, hnext, hchanged⟩ := ih (by omega)
    have hs := hsaved.sound s mem_cons_self
    obtain ⟨s', happlies, hvals, hparams⟩ := hs.applies_idle (by omega)
    have hnext' := happlies.nextHeight_eq hs
    refine ⟨s', s :: states, _, .next hsaved happlies, mem_cons_of_mem _ hfirst, by omega, ?_⟩
    intro t ht
    rcases mem_cons.1 ht with rfl | ht'
    · rw [hvals, hparams]
      exact hchanged s mem_cons_self
    · exact hchanged t ht'

end Idle

/-- In a chain without updates, pruning to height 200050 with the threshold 100050 loses the
validators there, whose record points to checkpoint 100000. -/
theorem prune_loses_validators :
    ∃ g s states store, makeGenesisState sampleCrypto sampleDoc = .ok g ∧ g ∈ s :: states ∧
      s.nextHeight = 200050 ∧ Kept sampleCrypto (s :: states) store ∧
      (∃ n, (StateStore.pruneStates sampleCrypto 5 200050 100050 store).result = .ok n) ∧
      (∃ vals, store.loadValidators sampleCrypto 100050 = .ok vals) ∧
      ∀ vals, ((StateStore.pruneStates sampleCrypto 5 200050 100050).final store).loadValidators
        sampleCrypto 100050 ≠ .ok vals := by
  have hg := eq_ok_of_isSome (a := .empty) (show (makeGenesisState sampleCrypto
    sampleDoc).toOption.isSome = true by decide +kernel)
  have hgenesis := genesis_of_sample (by decide) rfl hg
  generalize (makeGenesisState sampleCrypto sampleDoc).toOption.getD .empty = g at hg hgenesis
  have hinitial : g.initialHeight = 5 := initialHeight_makeGenesisState hg
  obtain ⟨s, states, store, hsaved, hfirst, hnext, hchanged⟩ := hgenesis.idle 200045 (by omega)
  rw [hinitial] at hnext
  obtain ⟨g', hl', hrec⟩ := hsaved.recorded
  obtain ⟨_, hl, hr⟩ := hsaved.kept.records
  have hinitial' : g'.initialHeight = 5 := (hl'.initialHeight g hfirst).symm.trans hinitial
  have hvals : ∀ h, 5 < h → h ≤ 200050 → ∃ info, store.validatorsInfo h = some info ∧
      info.lastHeightChanged = 5 ∧ (h % valSetCheckpointInterval ≠ 0 → info.validatorSet =
        none) := by
    intro h hlo hhi
    obtain ⟨u, hu, hheight⟩ := hl'.covers (h - 1) (by omega) (by omega)
    have hu' : u.nextHeight + 1 = h := by omega
    have hchg := (hchanged u hu).1.trans hinitial
    refine ⟨validatorsRecord u, hu' ▸ hrec.validators u hu, hchg, fun hcheck => ?_⟩
    rw [validatorsRecord, if_neg]
    rw [hu', hchg]
    omega
  obtain ⟨valInfo, hvalInfo, hvchanged, hset⟩ := hvals 100050 (by omega) (by omega)
  obtain ⟨cpInfo, hcpInfo, -⟩ := hvals 100000 (by omega) (by omega)
  have hparams := hnext ▸ hrec.params s mem_cons_self
  have hset' := hset (by decide)
  have hp : Prunes store 5 200050 100050 valInfo (paramsRecord s) :=
    ⟨by omega, by omega, hvalInfo, hparams⟩
  have hcp : checkpoint (min 200050 100050) = 100000 := by decide
  have hcp' : checkpoint 200050 = 200000 := by decide
  have hall : KeepsAll store (keepValsOf valInfo 200050)
      (keepParamsOf (paramsRecord s)) 5 := by
    constructor
    · intro h hmem _
      rw [keepValsOf, hset', if_pos isNone_none, hvchanged] at hmem
      rcases mem_cons.1 hmem with rfl | hmem'
      · rw [← hinitial', hrec.initial]
        rfl
      · obtain ⟨info, hinfo, -⟩ := hvals 200000 (by omega) (by omega)
        rw [mem_singleton.1 hmem']
        exact isSome_iff_exists.2 ⟨info, hinfo⟩
    · intro h hmem _
      rw [keepParamsOf] at hmem
      split at hmem
      · have hheight : h = 5 :=
          (mem_singleton.1 hmem).trans ((hchanged s mem_cons_self).2.trans hinitial)
        obtain ⟨u, hu, hnext'⟩ := hl'.covers 5 (by omega) (by omega)
        rw [hheight, ← hnext', hrec.params u hu]
        rfl
      · exact absurd hmem not_mem_nil
  obtain ⟨hsafe, hends⟩ := hp.spec hr hl
  obtain ⟨n, hn⟩ := hends hall
  obtain ⟨hbefore, hafter⟩ := hp.loses_threshold hr hl hset'
    (by rw [hcp, hvchanged]; decide) (by rw [hcp, hcp']; decide)
    (by rw [hcp, hcpInfo]; exact some_ne_none _) (by rw [hcp]; decide)
  refine ⟨g, s, states, store, hg, hfirst, hnext, hsaved.kept, ⟨n, hn⟩, hbefore, ?_⟩
  rw [hsafe.returns n hn]
  exact hafter

end CelestiaCore.SM
