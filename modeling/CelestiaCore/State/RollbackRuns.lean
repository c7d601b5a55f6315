import CelestiaCore.State.PruneLoads
import CelestiaCore.State.Rollback
import CelestiaCore.Store.Contiguous

/-!
# The state that a rollback saves

`Rollback` of the last block saves the state before it, which loads back.
-/
namespace CelestiaCore.SM
open Wire Program BlockStore Relation CachedValidatorSet StateStore List Option
open Function (update_of_ne update)
open Durable (onPart read_bind_apply lift_bind_apply final)

variable {vals : CachedValidatorSet}

section Frame
variable {crypto : Crypto} {ss ss' : StateStore} {s : State} {h : Int}

theorem times_pos {vals vals' : CachedValidatorSet} {times : Int}
    (h : vals.incrementProposerPriority times = .ok vals') : 0 < times := by
  rw [incrementProposerPriority] at h
  split at h
  · cases h
  · split at h
    · cases h
    · next hpos => exact not_le.1 hpos

theorem loadValidators_eq_ok (hload : ss.loadValidators crypto h = .ok vals) :
    vals.Loaded crypto ∧ ∀ r, ss.validatorsInfo h = some r → r.validatorSet = none →
      lastStoredHeightFor h r.lastHeightChanged < h := by
  rw [loadValidators] at hload
  cases hrec : ss.validatorsInfo h with
  | none => simp [hrec] at hload
  | some r =>
    cases hset : r.validatorSet with
    | some vp =>
      simp only [hrec, hset] at hload
      refine ⟨loaded_of_fromProto hload, fun r' hr' hset' => ?_⟩
      cases hr'
      rw [hset] at hset'
      cases hset'
    | none =>
      simp only [hrec, hset] at hload
      split at hload
      · cases hload
      obtain ⟨vs, -, hrest⟩ := except_bind_eq_ok.1 hload
      split at hrest
      · cases hrest
      obtain ⟨vs', hinc, hrest'⟩ := except_bind_eq_ok.1 hrest
      obtain ⟨vi2, -, hlast⟩ := except_bind_eq_ok.1 hrest'
      refine ⟨loaded_of_fromProto hlast, fun r' hr' _ => ?_⟩
      cases hr'
      have := times_pos hinc
      omega

theorem load_eq_ok (hload : ss.load crypto = .ok (some s)) :
    s.validators.Loaded crypto ∧ s.nextValidators.Loaded crypto ∧
      (1 ≤ s.lastBlockHeight → s.lastValidators.Loaded crypto) := by
  rw [load] at hload
  cases hstate : ss.state with
  | none => simp [hstate] at hload
  | some pb =>
    have hpb : pb.fromProto crypto = .ok s := by
      cases hfrom : pb.fromProto crypto with
      | error err => simp [hstate, hfrom, Except.map] at hload
      | ok s' =>
        simp only [hstate, hfrom, Except.map, Except.ok.injEq, some.injEq] at hload
        rw [hload]
    rw [State.fromProto] at hpb
    obtain ⟨vals, hvals, hpb'⟩ := except_bind_eq_ok.1 hpb
    obtain ⟨nVals, hnVals, hpb''⟩ := except_bind_eq_ok.1 hpb'
    split at hpb''
    · obtain ⟨lVals, hlVals, hs⟩ := except_bind_eq_ok.1 hpb''
      cases hs
      exact ⟨loaded_of_fromProto hvals, loaded_of_fromProto hnVals,
        fun _ => loaded_of_fromProto hlVals⟩
    · next hzero =>
      obtain rfl := Except.ok.inj hpb''
      exact ⟨loaded_of_fromProto hvals, loaded_of_fromProto hnVals, fun hone => absurd hone hzero⟩

theorem State.Storable.load_saved (hs : s.Storable crypto) (hone : 1 ≤ s.lastBlockHeight)
    (ss : StateStore) : (ss.saved s).load crypto = .ok (some s) := by
  have hv := hs.validators
  have hn := hs.nextValidators
  have hl := hs.lastValidators hone
  rw [CachedValidatorSet.Loaded] at hv hn hl
  simp only [load, saved, State.fromProto, State.stored, if_pos hone, hv, hn, hl,
    bind, Except.bind, Except.map]

end Frame

section Rolled
variable {crypto : Crypto} {st : Stores} {state : State}

structure Rolled (crypto : Crypto) (st : Stores) (state rolled : State) : Prop where
  previous : previousState crypto st state = .ok rolled
  storable : rolled.Storable crypto
  lastBlockHeight : rolled.lastBlockHeight = state.lastBlockHeight - 1
  one_le : 1 ≤ rolled.lastBlockHeight
  paramsChanged : rolled.lastHeightConsensusParamsChanged ≤ state.lastBlockHeight
  appHash : (st.bs.blockMeta state.lastBlockHeight).map (·.header.appHash) = some rolled.appHash

theorem rolled_of_reads (hloads : st.ss.load crypto = .ok (some state))
    (htwo : 2 ≤ state.lastBlockHeight)
    {m m' : BlockMeta} {params : ConsensusParams}
    (hm : st.bs.blockMeta (state.lastBlockHeight - 1) = some m)
    (hmh : m.header.height.toInt = state.lastBlockHeight - 1)
    (hm' : st.bs.blockMeta state.lastBlockHeight = some m')
    (hvals : st.ss.loadValidators crypto (state.lastBlockHeight - 1) = .ok vals)
    (hparams : st.ss.loadConsensusParams (state.lastBlockHeight - 1 + 1) = .ok params) :
    Rolled crypto st state
      (rolledBackState state (state.lastBlockHeight - 1) m m' vals params) := by
  obtain ⟨hv, hn, hl⟩ := load_eq_ok hloads
  have hnext : (rolledBackState state (state.lastBlockHeight - 1) m m' vals params).nextHeight =
      state.lastBlockHeight := by
    simp only [State.nextHeight, rolledBackState, hmh]
    rw [if_neg (by omega)]
    omega
  constructor
  case previous => simp only [previousState, hm, hm', hvals, hparams, ok_bind]
  case storable =>
    refine ⟨hl (by omega), hv, fun _ => (loadValidators_eq_ok hvals).1, ?_⟩
    rw [hnext]
    simp only [rolledBackState]
    omega
  case lastBlockHeight => exact hmh
  case one_le =>
    simp only [rolledBackState, hmh]
    omega
  case paramsChanged =>
    simp only [rolledBackState]
    split
    · omega
    · omega
  case appHash =>
    rw [hm']
    rfl

end Rolled

end CelestiaCore.SM
