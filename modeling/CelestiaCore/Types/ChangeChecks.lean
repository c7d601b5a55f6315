import CelestiaCore.Types.ValidatorUpdate

/-!
# The checks of a change set

What it means for a list of changes to pass the checks of `updateWithChangeSet`.
-/
namespace CelestiaCore
open Wire Keyed Validator

def powerSum (vals : List Validator) : Int := (vals.map (·.votingPower)).sum

theorem powerSum_append (l l' : List Validator) :
    powerSum (l ++ l') = powerSum l + powerSum l' := by
  simp [powerSum]

theorem powerSum_perm {l l' : List Validator} (h : l.Perm l') : powerSum l = powerSum l' :=
  (h.map _).sum_eq

theorem powerSum_nonneg {l : List Validator} (h : ∀ v ∈ l, 0 ≤ v.votingPower) : 0 ≤ powerSum l := by
  refine List.sum_nonneg fun p hp => ?_
  obtain ⟨v, hv, rfl⟩ := List.mem_map.1 hp
  exact h v hv

/-- What the constructors and updates of a validator set keep of it. -/
structure CachedValidatorSet.Valid (vals : CachedValidatorSet) : Prop where
  power_pos : ∀ v ∈ vals.validators, 0 < v.votingPower
  total_le : vals.total ≤ maxTotalVotingPower
  cached : vals.totalVotingPower = vals.total
  nodup : (keys address vals.validators).Nodup
  sorted : vals.validators.Pairwise ByVotingPower

section Process
variable {changes changes' updates removals : List Validator} {v : Validator}

theorem scanChanges_cons {prev : Bytes}
    (h : scanChanges (v :: changes) prev = .ok (updates, removals)) :
    v.address ≠ prev ∧ 0 ≤ v.votingPower ∧ v.votingPower ≤ maxTotalVotingPower ∧
      ∃ us rs, scanChanges changes v.address = .ok (us, rs) ∧
        updates = (if v.votingPower = 0 then us else v :: us) ∧
        removals = if v.votingPower = 0 then v :: rs else rs := by
  rw [scanChanges] at h
  by_cases hdup : v.address = prev
  · simp [hdup] at h
  by_cases hneg : v.votingPower < 0
  · simp [hdup, hneg] at h
  by_cases hmax : maxTotalVotingPower < v.votingPower
  · simp [hdup, hneg, hmax] at h
  rw [if_neg hdup, if_neg hneg, if_neg hmax] at h
  refine ⟨hdup, not_lt.1 hneg, not_lt.1 hmax, ?_⟩
  obtain ⟨p, hrest, h⟩ := except_bind_eq_ok.1 h
  refine ⟨p.1, p.2, hrest, ?_⟩
  dsimp only at h
  split_ifs at h ⊢ <;> cases h <;> exact ⟨rfl, rfl⟩

/-- The scan accepts sorted changes whose addresses increase and whose powers are in range. -/
theorem scanChanges_eq_ok (prev : Bytes) (hsorted : changes.Pairwise (Le address))
    (hprev : ∀ v ∈ changes, (compare prev v.address).isLE)
    (h : scanChanges changes prev = .ok (updates, removals)) :
    (∀ v ∈ changes, compare prev v.address = .lt) ∧ Increasing address changes ∧
      (∀ v ∈ changes, 0 ≤ v.votingPower ∧ v.votingPower ≤ maxTotalVotingPower) ∧
      updates = changes.filter (·.votingPower ≠ 0) ∧
      removals = changes.filter (·.votingPower = 0) := by
  induction changes generalizing prev updates removals with
  | nil =>
    cases h
    simp [Increasing]
  | cons v changes ih =>
    obtain ⟨hdup, hneg, hmax, us, rs, hrest, rfl, rfl⟩ := scanChanges_cons h
    rw [List.pairwise_cons] at hsorted
    obtain ⟨hlt, hinc, hpow, hus, hrs⟩ := ih v.address hsorted.2 hsorted.1 hrest
    have hv : compare prev v.address = .lt := by
      cases hcmp : compare prev v.address with
      | lt => rfl
      | eq => exact absurd (Std.LawfulEqOrd.compare_eq_iff_eq.1 hcmp).symm hdup
      | gt => simpa [hcmp] using hprev v List.mem_cons_self
    refine ⟨?_, List.pairwise_cons.2 ⟨hlt, hinc⟩, ?_, ?_⟩
    · intro w hw
      rcases List.mem_cons.1 hw with rfl | hw
      · exact hv
      · exact Std.TransCmp.lt_trans hv (hlt w hw)
    · intro w hw
      rcases List.mem_cons.1 hw with rfl | hw
      · exact ⟨hneg, hmax⟩
      · exact hpow w hw
    · by_cases hzero : v.votingPower = 0 <;> simp [hzero, hus, hrs]

/-- What `processChanges` splits the changes into. -/
structure Split (changes updates deletes : List Validator) : Prop where
  nodup : (keys address changes).Nodup
  power : ∀ v ∈ changes, 0 ≤ v.votingPower ∧ v.votingPower ≤ maxTotalVotingPower
  updates : updates = (sortByAddress changes).filter (·.votingPower ≠ 0)
  deletes : deletes = (sortByAddress changes).filter (·.votingPower = 0)

theorem processChanges_eq_ok (h : processChanges changes = .ok (updates, removals)) :
    Split changes updates removals := by
  have hperm : (sortByAddress changes).Perm changes := sort_perm changes
  have hle : ∀ v ∈ sortByAddress changes, (compare ([] : Bytes) v.address).isLE := by
    intro v _
    cases v.address <;> rfl
  obtain ⟨-, hinc, hpow, hu, hr⟩ := scanChanges_eq_ok []
    (List.pairwise_insertionSort (Le address) changes) hle h
  exact ⟨(hperm.map _).nodup_iff.1 hinc.nodup, fun v hv => hpow v (hperm.mem_iff.2 hv), hu, hr⟩

theorem processChanges_perm (hnodup : (keys address changes).Nodup)
    (hperm : changes.Perm changes') : processChanges changes' = processChanges changes := by
  have hnodup' : (keys address changes').Nodup := (hperm.map _).nodup_iff.1 hnodup
  have hsort : sortByAddress changes' = sortByAddress changes :=
    (sort_increasing hnodup').eq_of_perm (sort_increasing hnodup)
      ((sort_perm changes').trans (hperm.symm.trans (sort_perm changes).symm))
  rw [processChanges, processChanges, hsort]

variable {deletes : List Validator} (h : Split changes updates deletes)
include h

theorem Split.sorted : Increasing address (sortByAddress changes) :=
  sort_increasing h.nodup

theorem Split.mem_updates : v ∈ updates ↔ v ∈ changes ∧ v.votingPower ≠ 0 := by
  rw [h.updates, List.mem_filter, sortByAddress, (sort_perm changes).mem_iff]
  simp

theorem Split.mem_deletes : v ∈ deletes ↔ v ∈ changes ∧ v.votingPower = 0 := by
  rw [h.deletes, List.mem_filter, sortByAddress, (sort_perm changes).mem_iff]
  simp

theorem Split.updates_increasing : Increasing address updates := by
  rw [h.updates]
  exact h.sorted.filter _

theorem Split.deletes_increasing : Increasing address deletes := by
  rw [h.deletes]
  exact h.sorted.filter _

theorem Split.perm : (updates ++ deletes).Perm changes := by
  have hsort : (sortByAddress changes).Perm changes := sort_perm changes
  rw [h.updates, h.deletes]
  refine List.Perm.trans ?_ hsort
  simpa using List.filter_append_perm (fun v : Validator => decide (v.votingPower ≠ 0))
    (sortByAddress changes)

theorem Split.mem_keys {a : Bytes} : a ∈ keys address changes ↔
    a ∈ keys address updates ∨ a ∈ keys address deletes := by
  simp only [keys, List.mem_map]
  constructor
  · rintro ⟨v, hv, rfl⟩
    by_cases hzero : v.votingPower = 0
    · exact Or.inr ⟨v, h.mem_deletes.2 ⟨hv, hzero⟩, rfl⟩
    · exact Or.inl ⟨v, h.mem_updates.2 ⟨hv, hzero⟩, rfl⟩
  · rintro (⟨v, hv, rfl⟩ | ⟨v, hv, rfl⟩)
    · exact ⟨v, (h.mem_updates.1 hv).1, rfl⟩
    · exact ⟨v, (h.mem_deletes.1 hv).1, rfl⟩

theorem Split.not_mem_deletes (hv : v ∈ updates) : v.address ∉ keys address deletes := by
  intro hmem
  obtain ⟨d, hd, haddr⟩ := List.mem_map.1 hmem
  obtain ⟨hvc, hvp⟩ := h.mem_updates.1 hv
  obtain ⟨hdc, hdp⟩ := h.mem_deletes.1 hd
  have hd' := (lookup_eq_some h.nodup).2 ⟨hdc, rfl⟩
  have hv' := (lookup_eq_some h.nodup).2 ⟨hvc, rfl⟩
  rw [haddr, hv'] at hd'
  exact hvp (Option.some.inj hd' ▸ hdp)

end Process

section Totals
variable {vals : List Validator}

def powerAt (vals : List Validator) (v : Validator) : Int :=
  (findByAddress vals v.address).elim 0 (·.votingPower)

def powerUnder (vals ds : List Validator) : Int :=
  powerSum (within address vals ds)

theorem sum_powerAt (hvals : (keys address vals).Nodup) {ds : List Validator}
    (hds : (keys address ds).Nodup) : (ds.map (powerAt vals)).sum = powerUnder vals ds :=
  sum_lookup hvals hds votingPower

theorem powerUnder_add_without (vals ds : List Validator) :
    powerUnder vals ds + powerSum (without address vals ds) = powerSum vals := by
  rw [powerUnder, ← powerSum_append]
  exact powerSum_perm (within_append_without_perm vals ds)

section
variable (hpow : ∀ v ∈ vals, 0 ≤ v.votingPower)
include hpow

theorem powerUnder_le (ds : List Validator) : powerUnder vals ds ≤ powerSum vals := by
  have hrest : 0 ≤ powerSum (without address vals ds) :=
    powerSum_nonneg fun v hv => hpow v (mem_without.1 hv).1
  have := powerUnder_add_without vals ds
  omega

theorem powerAt_nonneg (d : Validator) : 0 ≤ powerAt vals d := by
  unfold powerAt
  cases hd : findByAddress vals d.address with
  | none => simp
  | some v => exact hpow v (List.mem_of_find?_eq_some hd)

theorem sum_powerAt_nonneg (ds : List Validator) : 0 ≤ (ds.map (powerAt vals)).sum := by
  refine List.sum_nonneg fun p hp => ?_
  obtain ⟨d, -, rfl⟩ := List.mem_map.1 hp
  exact powerAt_nonneg hpow d

theorem delta_eq {update : Validator} (hold : powerAt vals update ≤ maxTotalVotingPower)
    (hpos : 0 ≤ update.votingPower) (hle : update.votingPower ≤ maxTotalVotingPower) :
    delta vals update = update.votingPower - powerAt vals update := by
  have hnonneg := powerAt_nonneg hpow update
  unfold delta powerAt at *
  simp only [maxTotalVotingPower, maxInt64] at hold hle
  cases hfind : findByAddress vals update.address with
  | none => simp
  | some val =>
    rw [hfind] at hold hnonneg
    simp only [Option.elim_some] at hold hnonneg ⊢
    exact wrap64_of_range (by omega) (by omega)

theorem verifyRemovals_eq_ok (ds : List Validator) (removed : Int) {r : Int}
    (hremoved : 0 ≤ removed) (hle : removed + (ds.map (powerAt vals)).sum ≤ maxTotalVotingPower)
    (h : verifyRemovals vals ds removed = .ok r) :
    r = removed + (ds.map (powerAt vals)).sum ∧ ∀ d ∈ ds, d.address ∈ keys address vals := by
  induction ds generalizing removed with
  | nil =>
    cases h
    simp
  | cons d ds ih =>
    rw [verifyRemovals] at h
    cases hfind : findByAddress vals d.address with
    | none => simp [hfind] at h
    | some val =>
      have hat : powerAt vals d = val.votingPower := by simp [powerAt, hfind]
      have hval : val ∈ vals := List.mem_of_find?_eq_some hfind
      have hrest := sum_powerAt_nonneg hpow ds
      have hd := hpow val hval
      rw [List.map_cons, List.sum_cons, hat] at hle ⊢
      have hwrap : wrap64 (removed + val.votingPower) = removed + val.votingPower := by
        simp only [maxTotalVotingPower, maxInt64] at hle
        exact wrap64_of_range (by omega) (by omega)
      simp only [hfind, hwrap] at h
      obtain ⟨hr, hmem⟩ := ih _ (by omega) (by omega) h
      refine ⟨by omega, fun e he => ?_⟩
      rcases List.mem_cons.1 he with rfl | he
      · exact List.mem_map.2 ⟨val, hval, by simpa using List.find?_some hfind⟩
      · exact hmem e he

theorem addDeltas_eq_ok (us : List Validator) (tvp : Int)
    {r : Int} (hus : ∀ u ∈ us, 0 ≤ u.votingPower ∧ u.votingPower ≤ maxTotalVotingPower ∧
      powerAt vals u ≤ maxTotalVotingPower)
    (hlow : -maxTotalVotingPower ≤ tvp - (us.map (powerAt vals)).sum)
    (hhigh : tvp ≤ maxTotalVotingPower) (h : addDeltas vals us tvp = .ok r) :
    r = tvp + powerSum us - (us.map (powerAt vals)).sum ∧ r ≤ maxTotalVotingPower := by
  induction us generalizing tvp with
  | nil =>
    cases h
    simp [powerSum, hhigh]
  | cons u us ih =>
    obtain ⟨hpos, hle, hold⟩ := hus u List.mem_cons_self
    have hrest := sum_powerAt_nonneg hpow us
    have hold0 := powerAt_nonneg hpow u
    have hsum : powerSum (u :: us) = u.votingPower + powerSum us := by simp [powerSum]
    rw [List.map_cons, List.sum_cons] at hlow ⊢
    have hwrap : wrap64 (tvp + delta vals u) = tvp + u.votingPower - powerAt vals u := by
      rw [delta_eq hpow hold hpos hle]
      simp only [maxTotalVotingPower, maxInt64] at *
      rw [wrap64_of_range (by omega) (by omega)]
      omega
    simp only [addDeltas, hwrap] at h
    split_ifs at h with hmax
    obtain ⟨hr, hrle⟩ := ih _ (fun w hw => hus w (List.mem_cons_of_mem _ hw)) (by omega)
      (by omega) h
    exact ⟨by omega, hrle⟩

end

end Totals

namespace CachedValidatorSet
variable {vals vals' : CachedValidatorSet} {changes : List Validator} {plan : Plan} {allow : Bool}

theorem Valid.power_nonneg (h : vals.Valid) : ∀ v ∈ vals.validators, 0 ≤ v.votingPower :=
  fun v hv => (h.power_pos v hv).le

theorem Valid.powerSum_le (h : vals.Valid) : powerSum vals.validators ≤ maxTotalVotingPower :=
  h.total_le

theorem Valid.bounded (h : vals.Valid) : vals.toValidatorSet.Bounded := ⟨h.power_nonneg, h.total_le⟩

theorem Valid.withTotal_eq (h : vals.Valid) : vals.withTotal = .ok vals := by
  unfold withTotal updateTotalVotingPower
  split_ifs with hzero
  · have hsum : vals.validators.foldlM ValidatorSet.addPower 0 = .ok vals.total :=
      h.bounded.totalVotingPower_eq
    rw [hsum, ← h.cached]
    rfl
  · rfl

/-- A plan that the checks of a set made of a list of changes. -/
structure Plan.Passes (vals : CachedValidatorSet) (changes : List Validator) (plan : Plan) :
    Prop where
  split : Split changes plan.updates plan.deletes
  found : ∀ d ∈ plan.deletes, d.address ∈ keys address vals.validators
  nonempty : numNewValidators plan.updates vals.validators ≠ 0 ∨
    vals.validators.length ≠ plan.deletes.length
  tvp : plan.tvpAfterUpdatesBeforeRemovals =
    vals.total + powerSum plan.updates - powerUnder vals.validators plan.updates
  total_le : plan.tvpAfterUpdatesBeforeRemovals - powerUnder vals.validators plan.deletes ≤
    maxTotalVotingPower

theorem length_deletes_le {deletes : List Validator} (hinc : Increasing address deletes)
    (hfound : ∀ d ∈ deletes, d.address ∈ keys address vals.validators) :
    deletes.length ≤ vals.validators.length := by
  have hsub : keys address deletes ⊆ keys address vals.validators := by
    intro a ha
    obtain ⟨d, hd, rfl⟩ := List.mem_map.1 ha
    exact hfound d hd
  simpa [keys] using (List.Nodup.subperm hinc.nodup hsub).length_le

theorem Valid.powerAt_le (h : vals.Valid) (v : Validator) :
    powerAt vals.validators v ≤ maxTotalVotingPower := by
  have hnodup : (keys address [v]).Nodup := by simp [keys]
  have hsum := sum_powerAt h.nodup hnodup
  have hle := powerUnder_le h.power_nonneg [v]
  have htotal := h.powerSum_le
  rw [List.map_singleton, List.sum_singleton] at hsum
  omega

theorem Valid.sortByDelta_spec (h : vals.Valid) {updates : List Validator}
    (hinc : Increasing address updates)
    (hpow : ∀ u ∈ updates, 0 ≤ u.votingPower ∧ u.votingPower ≤ maxTotalVotingPower) :
    (∀ u ∈ sortByDelta vals.validators updates, 0 ≤ u.votingPower ∧
      u.votingPower ≤ maxTotalVotingPower ∧ powerAt vals.validators u ≤ maxTotalVotingPower) ∧
    powerSum (sortByDelta vals.validators updates) = powerSum updates ∧
    ((sortByDelta vals.validators updates).map (powerAt vals.validators)).sum =
      powerUnder vals.validators updates := by
  have hperm : (sortByDelta vals.validators updates).Perm updates := List.perm_insertionSort ..
  refine ⟨fun u hu => ?_, powerSum_perm hperm, ?_⟩
  · obtain ⟨h0, hle⟩ := hpow u (hperm.mem_iff.1 hu)
    exact ⟨h0, hle, h.powerAt_le u⟩
  · rw [(hperm.map _).sum_eq, sum_powerAt h.nodup hinc.nodup]

section VerifyUpdates
variable (h : vals.Valid) {updates : List Validator} {removed r : Int}
  (hinc : Increasing address updates)
  (hpow : ∀ u ∈ updates, 0 ≤ u.votingPower ∧ u.votingPower ≤ maxTotalVotingPower)
  (hremoved : 0 ≤ removed) (hle : removed ≤ vals.total)
include h hinc hpow hremoved hle

theorem Valid.verifyUpdates_eq_ok
    (hok : verifyUpdates updates vals.validators vals.totalVotingPower removed = .ok r) :
    r = vals.total + powerSum updates - powerUnder vals.validators updates ∧
      r - removed ≤ maxTotalVotingPower := by
  obtain ⟨hus, hsum, hold⟩ := h.sortByDelta_spec hinc hpow
  have htotal := h.total_le
  have hunder : powerUnder vals.validators updates ≤ vals.total := powerUnder_le h.power_nonneg _
  have hstart : wrap64 (vals.totalVotingPower - removed) = vals.total - removed := by
    rw [h.cached]
    simp only [maxTotalVotingPower, maxInt64] at htotal
    exact wrap64_of_range (by omega) (by omega)
  rw [verifyUpdates, hstart] at hok
  obtain ⟨t, hadd, hok⟩ := except_bind_eq_ok.1 hok
  obtain ⟨ht, htle⟩ := addDeltas_eq_ok h.power_nonneg _ _ hus (by omega) (by omega) hadd
  rw [hsum, hold] at ht
  have hpos : 0 ≤ powerSum updates := powerSum_nonneg fun u hu => (hpow u hu).1
  rw [Except.ok.injEq] at hok
  simp only [maxTotalVotingPower, maxInt64] at *
  rw [wrap64_of_range (by omega) (by omega)] at hok
  exact ⟨by omega, by omega⟩

end VerifyUpdates

/-- The checks of a valid set leave it as it is, panic nowhere, and pass only sound plans. -/
theorem Valid.checkChanges_eq (h : vals.Valid) (changes : List Validator) (allow : Bool) :
    ∃ r, vals.checkChanges changes allow = .ok (vals, r) ∧
      ∀ plan, r = .ok plan → plan.Passes vals changes := by
  unfold checkChanges
  cases hproc : processChanges changes with
  | error err => exact ⟨.error err, rfl, by simp⟩
  | ok p =>
    obtain ⟨updates, deletes⟩ := p
    have hsplit := processChanges_eq_ok hproc
    by_cases hallow : allow = false ∧ deletes ≠ []
    · exact ⟨_, if_pos hallow, by simp⟩
    by_cases hempty : numNewValidators updates vals.validators = 0 ∧
        vals.validators.length = deletes.length
    · refine ⟨_, (if_neg hallow).trans (if_pos hempty), by simp⟩
    simp only [if_neg hallow, if_neg hempty]
    cases hrem : verifyRemovals vals.validators deletes 0 with
    | error err => exact ⟨.error err, rfl, by simp⟩
    | ok removed =>
      have hunder := powerUnder_le h.power_nonneg deletes
      have hsum := sum_powerAt h.nodup hsplit.deletes_increasing.nodup
      have hnonneg := sum_powerAt_nonneg h.power_nonneg deletes
      have htot : powerSum vals.validators = vals.total := rfl
      obtain ⟨hr, hfound⟩ := verifyRemovals_eq_ok h.power_nonneg deletes 0 le_rfl
        (by have := h.total_le; omega) hrem
      have hlen := length_deletes_le hsplit.deletes_increasing hfound
      simp only [if_neg (not_lt.2 hlen), h.withTotal_eq]
      cases hupd : verifyUpdates updates vals.validators vals.totalVotingPower removed with
      | error err => exact ⟨.error err, rfl, by simp⟩
      | ok tvp =>
        refine ⟨_, rfl, ?_⟩
        rintro plan ⟨⟩
        obtain ⟨htvp, hle⟩ := h.verifyUpdates_eq_ok hsplit.updates_increasing
          (fun u hu => hsplit.power u (hsplit.mem_updates.1 hu).1) (by omega) (by omega) hupd
        refine ⟨hsplit, hfound, ?_, htvp, ?_⟩
        · by_contra hcon
          rw [not_or, not_not, not_not] at hcon
          exact hempty hcon
        · simp only
          omega

end CachedValidatorSet

end CelestiaCore
