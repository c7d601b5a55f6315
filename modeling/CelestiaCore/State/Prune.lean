import CelestiaCore.State.LoadHistory

/-!
# Pruning the state store

`PruneStates` of `state/store.go`. The loop only deletes, from the top down.
-/
namespace CelestiaCore.SM
open Wire Program StateStore
open Function (update update_self update_of_ne)
open Durable (write read lift fail)

/-- `Set` and `Delete` of the two kinds of records. -/
inductive PruneWrite where
  | validators (height : Int) (value : Option ValidatorsInfo)
  | params (height : Int) (value : Option ConsensusParamsInfo)

namespace StateStore

def applyWrite (store : StateStore) : PruneWrite → StateStore
  | .validators h v => { store with validatorsInfo := update store.validatorsInfo h v }
  | .params h v => { store with consensusParamsInfo := update store.consensusParamsInfo h v }

def applyWrites (batch : List PruneWrite) (store : StateStore) : StateStore :=
  batch.foldl applyWrite store

/-- What the loop of `PruneStates` does with the validators of a height: a height to keep gets a
full record if it has none. -/
def pruneValidators (crypto : Crypto) (store : StateStore) (h evidenceThresholdHeight : Int)
    (keepVals : List Int) : Except String (List PruneWrite) :=
  if h ∈ keepVals then
    if ((store.validatorsInfo h).bind (·.validatorSet)).isSome then .ok []
    else do
      let vip ← store.loadValidators crypto h
      let pvi ← vip.toValidatorSet.toProto
      .ok [.validators h (some ⟨some pvi, h⟩)]
  else if h < evidenceThresholdHeight then .ok [.validators h none]
  else .ok []

def pruneParams (store : StateStore) (h : Int) (keepParams : List Int) :
    Except String (List PruneWrite) :=
  if h ∈ keepParams then
    match store.consensusParamsInfo h with
    | none => .error "value retrieved from db is empty"
    | some p =>
      if p.consensusParams.isSome then .ok []
      else do
        let params ← store.loadConsensusParams h
        .ok [.params h (some ⟨some params, h⟩)]
  else .ok [.params h none]

/-- The loop of `PruneStates` over the heights `first + n - 1` down to `first`. The batch is flushed
every 1000 heights, and at the end. -/
def pruneLoop (crypto : Crypto) (first evidenceThresholdHeight : Int)
    (keepVals keepParams : List Int) : Nat → Nat → List PruneWrite → Durable StateStore Nat
  | 0, pruned, batch => do
    write (applyWrites batch)
    pure pruned
  | n + 1, pruned, batch => do
    let store ← read
    let vals ← lift
      (pruneValidators crypto store (first + n) evidenceThresholdHeight keepVals)
    let params ← lift (pruneParams store (first + n) keepParams)
    if (pruned + 1) % 1000 = 0 then do
      write (applyWrites (batch ++ vals ++ params))
      pruneLoop crypto first evidenceThresholdHeight keepVals keepParams n (pruned + 1) []
    else
      pruneLoop crypto first evidenceThresholdHeight keepVals keepParams n (pruned + 1)
        (batch ++ vals ++ params)

def keepValsOf (valInfo : ValidatorsInfo) (upto : Int) : List Int :=
  if valInfo.validatorSet.isNone then
    [valInfo.lastHeightChanged, lastStoredHeightFor upto valInfo.lastHeightChanged]
  else []

def keepParamsOf (paramsInfo : ConsensusParamsInfo) : List Int :=
  if paramsInfo.consensusParams.isNone then [paramsInfo.lastHeightChanged] else []

/-- `PruneStates` once the heights have been checked. -/
def pruneRecords (crypto : Crypto) (store : StateStore) (first upto evidenceThresholdHeight : Int) :
    Durable StateStore Nat :=
  match store.validatorsInfo (min upto evidenceThresholdHeight), store.consensusParamsInfo upto with
  | none, _ => fail s!"validators at height {upto} not found"
  | some _, none => fail s!"consensus params at height {upto} not found"
  | some valInfo, some paramsInfo =>
    pruneLoop crypto first evidenceThresholdHeight (keepValsOf valInfo upto)
      (keepParamsOf paramsInfo)
      (upto - first).toNat 0 []

/-- `PruneStates`: the number of heights pruned. -/
def pruneStates (crypto : Crypto) (first upto evidenceThresholdHeight : Int) :
    Durable StateStore Nat := do
  let store ← read
  if first ≤ 0 ∨ upto ≤ 0 then
    fail s!"from height {first} and to height {upto} must be greater than 0"
  else if upto ≤ first then
    fail s!"from height {first} must be lower than to height {upto}"
  else pruneRecords crypto store first upto evidenceThresholdHeight

end StateStore

/-- The records in a store are records of the states of a chain. -/
structure Records (g : State) (states : List State) (store : StateStore) : Prop where
  validators : ∀ h r, store.validatorsInfo h = some r →
    (h = g.initialHeight ∧ r = initialRecord g) ∨
      ∃ u ∈ states, h = u.nextHeight + 1 ∧ r = validatorsRecord u
  params : ∀ h r, store.consensusParamsInfo h = some r →
    ∃ u ∈ states, h = u.nextHeight ∧ r = paramsRecord u

section Records
variable {crypto : Crypto} {g s : State} {states : List State} {store : StateStore} {h h' : Int}

section
variable (hr : Records g states store) (hl : Linked crypto g s states)
include hr hl

theorem Records.validatorsInfo_spec {r : ValidatorsInfo} (hrec : store.validatorsInfo h = some r) :
    g.initialHeight ≤ r.lastHeightChanged ∧ r.lastHeightChanged ≤ h ∧
      ((h = r.lastHeightChanged ∨ h % valSetCheckpointInterval = 0) →
        ∃ vals : CachedValidatorSet, r.validatorSet = some vals.toValidatorSet ∧
          vals.Sound crypto) ∧
      (¬(h = r.lastHeightChanged ∨ h % valSetCheckpointInterval = 0) → r.validatorSet = none) := by
  rcases hr.validators h r hrec with ⟨rfl, rfl⟩ | ⟨u, hu, rfl, rfl⟩
  · refine ⟨le_rfl, le_rfl, fun _ => ⟨g.validators, rfl, (hl.sound g hl.first).validators⟩,
      fun hnot => ?_⟩
    exact absurd (.inl rfl) hnot
  have hus := hl.sound u hu
  refine ⟨hl.initialHeight u hu ▸ hus.validatorsChanged.1, hus.validatorsChanged.2, ?_, ?_⟩
  · intro hfull
    exact ⟨u.nextValidators, if_pos hfull, hus.nextValidators⟩
  · exact fun hnot => if_neg hnot

/-- Records between a height and the change it goes back to go back to the same change. -/
theorem Records.validatorsInfo_coherent {r r' : ValidatorsInfo}
    (hrec : store.validatorsInfo h = some r) (hrec' : store.validatorsInfo h' = some r')
    (hlo : r'.lastHeightChanged ≤ h) (hhi : h ≤ h') :
    r.lastHeightChanged = r'.lastHeightChanged := by
  have hge : ∀ u ∈ states, g.initialHeight ≤ u.nextHeight := fun u hu =>
    hl.initialHeight u hu ▸ (hl.sound u hu).initial_le
  have hge' : ∀ u ∈ states, g.initialHeight ≤ u.lastHeightValidatorsChanged := fun u hu =>
    hl.initialHeight u hu ▸ (hl.sound u hu).validatorsChanged.1
  rcases hr.validators h r hrec with ⟨rfl, rfl⟩ | ⟨u, hu, rfl, rfl⟩
  · rcases hr.validators h' r' hrec' with ⟨rfl, rfl⟩ | ⟨u', hu', rfl, rfl⟩
    · rfl
    · exact le_antisymm (hge' u' hu') hlo
  · rcases hr.validators h' r' hrec' with ⟨rfl, rfl⟩ | ⟨u', hu', rfl, rfl⟩
    · have := hge u hu
      omega
    · exact (hl.validators u' hu' u hu hlo (by omega)).2

theorem Records.params_coherent {r r' : ConsensusParamsInfo}
    (hrec : store.consensusParamsInfo h = some r) (hrec' : store.consensusParamsInfo h' = some r')
    (hlo : r'.lastHeightChanged ≤ h) (hhi : h ≤ h') :
    r.lastHeightChanged = r'.lastHeightChanged := by
  obtain ⟨u, hu, rfl, rfl⟩ := hr.params h r hrec
  obtain ⟨u', hu', rfl, rfl⟩ := hr.params h' r' hrec'
  exact (hl.params u' hu' u hu hlo hhi).2

theorem Records.params_spec {r : ConsensusParamsInfo}
    (hrec : store.consensusParamsInfo h = some r) :
    r.lastHeightChanged ≤ h ∧ (r.consensusParams.isSome ↔ h = r.lastHeightChanged) := by
  obtain ⟨u, hu, rfl, rfl⟩ := hr.params h r hrec
  refine ⟨(hl.sound u hu).paramsChanged.2, ?_⟩
  rw [paramsRecord, newConsensusParamsInfo]
  by_cases hchanged : u.lastHeightConsensusParamsChanged = u.nextHeight
  · simp [hchanged]
  · simp [hchanged, Ne.symm hchanged]

theorem Records.saved {t : State} (ht : t ∈ states) : Records g states (store.saved t) := by
  constructor
  · intro h r hrec
    rw [validatorsInfo_saved] at hrec
    by_cases hh : h = t.nextHeight + 1
    · rw [hh, update_self] at hrec
      exact .inr ⟨t, ht, hh, (Option.some.inj hrec).symm⟩
    rw [update_of_ne hh] at hrec
    split at hrec
    · next hfirst =>
      obtain rfl := hl.eq_first ht hfirst
      by_cases hi : h = t.initialHeight
      · rw [hi, update_self] at hrec
        exact .inl ⟨hi, (Option.some.inj hrec).symm⟩
      · rw [update_of_ne hi] at hrec
        exact hr.validators h r hrec
    · exact hr.validators h r hrec
  · intro h r hrec
    rw [consensusParamsInfo_saved] at hrec
    by_cases hh : h = t.nextHeight
    · rw [hh, update_self] at hrec
      exact ⟨t, ht, hh, (Option.some.inj hrec).symm⟩
    · rw [update_of_ne hh] at hrec
      exact hr.params h r hrec

omit hl in
theorem Records.cons (t : State) : Records g (t :: states) store where
  validators := fun h r hrec => (hr.validators h r hrec).imp_right fun ⟨u, hu, heq⟩ =>
    ⟨u, List.mem_cons_of_mem _ hu, heq⟩
  params := fun h r hrec =>
    let ⟨u, hu, heq⟩ := hr.params h r hrec
    ⟨u, List.mem_cons_of_mem _ hu, heq⟩

end

end Records

/-- The deletes of a prune that has come down to height `k`. -/
def StateStore.deleted (store : StateStore) (keepVals keepParams : List Int)
    (upto threshold k : Int) :
    StateStore where
  validatorsInfo h := if k ≤ h ∧ h < upto ∧ h < threshold ∧ h ∉ keepVals then none
    else store.validatorsInfo h
  consensusParamsInfo h := if k ≤ h ∧ h < upto ∧ h ∉ keepParams then none
    else store.consensusParamsInfo h
  state := store.state

section Loop
variable {crypto : Crypto} {store st : StateStore} {keepVals keepParams : List Int}
  {first upto threshold k : Int}

theorem applyWrites_append (b b' : List PruneWrite) (store : StateStore) :
    store.applyWrites (b ++ b') = (store.applyWrites b).applyWrites b' := List.foldl_append

def validatorsWrites (keepVals : List Int) (threshold h : Int) : List PruneWrite :=
  if h ∈ keepVals then [] else if h < threshold then [.validators h none] else []

def paramsWrites (keepParams : List Int) (h : Int) : List PruneWrite :=
  if h ∈ keepParams then [] else [.params h none]

theorem deleted_upto : store.deleted keepVals keepParams upto threshold upto = store := by
  have hvals : ∀ h, ¬(upto ≤ h ∧ h < upto ∧ h < threshold ∧ h ∉ keepVals) := fun h hh => by omega
  have hparams : ∀ h, ¬(upto ≤ h ∧ h < upto ∧ h ∉ keepParams) := fun h hh => by omega
  simp only [deleted, hvals, hparams, if_false]

theorem deletedFrom_pred {α : Type} {f : Int → Option α} {P : Int → Prop} [DecidablePred P]
    (k : Int) :
    (if P k then update (fun h => if k + 1 ≤ h ∧ P h then none else f h) k none
      else fun h => if k + 1 ≤ h ∧ P h then none else f h) =
      fun h => if k ≤ h ∧ P h then none else f h := by
  funext h
  obtain rfl | hne := eq_or_ne h k
  · by_cases hP : P h
    · rw [if_pos hP, update_self, if_pos ⟨le_rfl, hP⟩]
    · simp [hP]
  · have hiff : (k + 1 ≤ h ∧ P h) ↔ (k ≤ h ∧ P h) :=
      and_congr_left fun _ => ⟨fun hh => by omega, fun hh => by omega⟩
    rw [ite_apply, update_of_ne hne, ite_self]
    simp only [hiff]

theorem deleted_pred (hk : k < upto) :
    (store.deleted keepVals keepParams upto threshold (k + 1)).applyWrites
        (validatorsWrites keepVals threshold k ++ paramsWrites keepParams k) =
      store.deleted keepVals keepParams upto threshold k := by
  have hvals := deletedFrom_pred (f := store.validatorsInfo)
    (P := fun h => h < upto ∧ h < threshold ∧ h ∉ keepVals) k
  have hparams := deletedFrom_pred (f := store.consensusParamsInfo)
    (P := fun h => h < upto ∧ h ∉ keepParams) k
  simp only [hk, true_and] at hvals hparams
  simp only [deleted, ← hvals, ← hparams, validatorsWrites, paramsWrites]
  by_cases hval : k ∈ keepVals <;> by_cases hlt : k < threshold <;>
    by_cases hparam : k ∈ keepParams <;>
    simp [hval, hlt, hparam, applyWrites, applyWrite]

theorem pruneValidators_spec (crypto : Crypto) (threshold : Int) {h : Int}
    (hinfo : st.validatorsInfo h = store.validatorsInfo h)
    (hfull : h ∈ keepVals → ∀ r, store.validatorsInfo h = some r → r.validatorSet.isSome) :
    st.pruneValidators crypto h threshold keepVals = .ok (validatorsWrites keepVals threshold h) ∨
      (∃ err, st.pruneValidators crypto h threshold keepVals = .error err) ∧
        ¬(h ∈ keepVals → (store.validatorsInfo h).isSome) := by
  rw [pruneValidators, validatorsWrites, hinfo]
  by_cases hmem : h ∈ keepVals
  · cases hrec : store.validatorsInfo h with
    | none => simp [hmem, loadValidators, hinfo, hrec]
    | some r => simp [hmem, hfull hmem r hrec]
  · simp only [if_neg hmem]
    split <;> exact .inl rfl

theorem pruneParams_spec {h : Int} (hinfo : st.consensusParamsInfo h = store.consensusParamsInfo h)
    (hfull : h ∈ keepParams → ∀ r, store.consensusParamsInfo h = some r →
      r.consensusParams.isSome) :
    st.pruneParams h keepParams = .ok (paramsWrites keepParams h) ∨
      (∃ err, st.pruneParams h keepParams = .error err) ∧
        ¬(h ∈ keepParams → (store.consensusParamsInfo h).isSome) := by
  rw [pruneParams, paramsWrites, hinfo]
  by_cases hmem : h ∈ keepParams
  · cases hrec : store.consensusParamsInfo h with
    | none => simp [hmem]
    | some r => simp [hmem, hfull hmem r hrec]
  · exact .inl (by simp only [if_neg hmem])

/-- The records that a prune must keep are full. -/
structure KeepsFull (store : StateStore) (keepVals keepParams : List Int) : Prop where
  validators : ∀ h ∈ keepVals, ∀ r, store.validatorsInfo h = some r → r.validatorSet.isSome
  params : ∀ h ∈ keepParams, ∀ r, store.consensusParamsInfo h = some r → r.consensusParams.isSome

/-- They are there, from the height where the prune begins. -/
structure KeepsAll (store : StateStore) (keepVals keepParams : List Int) (first : Int) : Prop where
  validators : ∀ h ∈ keepVals, first ≤ h → (store.validatorsInfo h).isSome
  params : ∀ h ∈ keepParams, first ≤ h → (store.consensusParamsInfo h).isSome

/-- The loop deletes from the top down: `st` is what the flushes left, and with the batch all above
the next height is deleted. -/
theorem pruneLoop_spec (crypto : Crypto) (threshold : Int)
    (hfull : KeepsFull store keepVals keepParams) (n : Nat) :
    ∀ (pruned : Nat) (batch : List PruneWrite) (st : StateStore) (k : Int), first + n ≤ k →
      k ≤ upto →
      st = store.deleted keepVals keepParams upto threshold k →
      st.applyWrites batch = store.deleted keepVals keepParams upto threshold (first + n) →
      Durable.Safe (fun t => ∃ k, first ≤ k ∧ k ≤ upto ∧
          t = store.deleted keepVals keepParams upto threshold k)
        (pruneLoop crypto first threshold keepVals keepParams n pruned batch) st
        (fun _ t => t = store.deleted keepVals keepParams upto threshold first) ∧
      (KeepsAll store keepVals keepParams first → ∃ a,
        (pruneLoop crypto first threshold keepVals keepParams n pruned batch st).result =
          .ok a) := by
  induction n with
  | zero =>
    intro pruned batch st k hk hku hst hbatch
    rw [Nat.cast_zero, add_zero] at hbatch hk
    constructor
    · exact .bind (.write ⟨first, le_rfl, by omega, hbatch⟩ hbatch)
        fun _ t ht => .pure ht
    · exact fun _ => ⟨pruned, rfl⟩
  | succ n ih =>
    intro pruned batch st k hk hku hst hbatch
    push_cast at hk hbatch
    have hlt : first + (n : Int) < upto := by omega
    have hinfo : st.validatorsInfo (first + n) = store.validatorsInfo (first + n) := by
      rw [hst]
      exact if_neg fun hh => by omega
    have hpinfo : st.consensusParamsInfo (first + n) = store.consensusParamsInfo (first + n) := by
      rw [hst]
      exact if_neg fun hh => by omega
    have hbatch' : st.applyWrites (batch ++ validatorsWrites keepVals threshold (first + n) ++
        paramsWrites keepParams (first + n)) =
        store.deleted keepVals keepParams upto threshold (first + n) := by
      rw [List.append_assoc, applyWrites_append, hbatch, ← add_assoc]
      exact deleted_pred hlt
    have hread : pruneLoop crypto first threshold keepVals keepParams (n + 1) pruned batch st =
        (lift (st.pruneValidators crypto (first + n) threshold keepVals) >>= fun vals =>
          lift (st.pruneParams (first + n) keepParams) >>= fun params =>
          if (pruned + 1) % 1000 = 0 then
            write (applyWrites (batch ++ vals ++ params)) >>= fun _ =>
              pruneLoop crypto first threshold keepVals keepParams n (pruned + 1) []
          else pruneLoop crypto first threshold keepVals keepParams n (pruned + 1)
            (batch ++ vals ++ params)) st := rfl
    rcases pruneValidators_spec crypto threshold hinfo (hfull.validators _) with hv |
      ⟨⟨err, hv⟩, hnone⟩
    · rw [Durable.lift_bind_apply hv] at hread
      rcases pruneParams_spec hpinfo (hfull.params _) with hp | ⟨⟨err, hp⟩, hnone⟩
      · rw [Durable.lift_bind_apply hp] at hread
        split at hread
        · -- a flush
          obtain ⟨hsafe, hends⟩ := ih (pruned + 1) [] _ (first + n) le_rfl
            (by omega) hbatch' hbatch'
          constructor
          · refine .congr hread (.bind (Q := fun _ t => t = _)
              (.write ⟨first + n, by omega, by omega, hbatch'⟩ rfl) ?_)
            rintro _ t rfl
            exact hsafe
          · intro hall
            obtain ⟨a, ha⟩ := hends hall
            refine ⟨a, ?_⟩
            rw [hread]
            exact ha
        · obtain ⟨hsafe, hends⟩ := ih (pruned + 1) _ st k (by omega) hku hst hbatch'
          constructor
          · exact .congr hread hsafe
          · intro hall
            obtain ⟨a, ha⟩ := hends hall
            exact ⟨a, hread ▸ ha⟩
      · rw [Durable.lift_bind_error hp] at hread
        exact ⟨.congr hread Durable.Safe.fail,
          fun hall => absurd (fun hmem => hall.params _ hmem (by omega)) hnone⟩
    · rw [Durable.lift_bind_error hv] at hread
      exact ⟨.congr hread Durable.Safe.fail,
        fun hall => absurd (fun hmem => hall.validators _ hmem (by omega)) hnone⟩

end Loop

end CelestiaCore.SM
