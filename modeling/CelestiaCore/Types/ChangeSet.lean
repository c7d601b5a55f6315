import CelestiaCore.Types.ChangeChecks
import CelestiaCore.Types.Rotation

/-!
# Exact and all-or-nothing updates

What a passing change set leaves, and the invariant of every set that the three calls build.
-/
namespace CelestiaCore
open Wire Keyed Validator ValidatorSet

instance : Std.Total ByVotingPower where
  total v w := by
    rcases lt_trichotomy v.votingPower w.votingPower with hlt | heq | hlt
    · exact .inr (.inl hlt)
    · cases hcmp : compare v.address w.address with
      | lt => exact .inl (.inr ⟨heq, by simp [hcmp]⟩)
      | eq => exact .inl (.inr ⟨heq, by simp [hcmp]⟩)
      | gt => exact .inr (.inr ⟨heq.symm, by simp [Std.OrientedCmp.lt_of_gt hcmp]⟩)
    · exact .inl (.inl hlt)

instance : IsTrans Validator ByVotingPower where
  trans u v w := by
    rintro (h | ⟨h, hle⟩) (h' | ⟨h', hle'⟩)
    · exact .inl (by omega)
    · exact .inl (by omega)
    · exact .inl (by omega)
    · exact .inr ⟨h.trans h', Std.TransCmp.isLE_trans hle hle'⟩

section Identity
variable {l l' : List Validator}

theorem powerSum_eq_of_identity (h : l.map identity = l'.map identity) :
    powerSum l = powerSum l' := by
  have := congrArg (fun ids => (ids.map fun p => p.2.2).sum) h
  simpa [powerSum, identity, Function.comp_def] using this

theorem pairwise_byVotingPower_of_identity (h : l.map identity = l'.map identity)
    (hl : l'.Pairwise ByVotingPower) : l.Pairwise ByVotingPower := by
  let R : Bytes × Option PubKey × Int → Bytes × Option PubKey × Int → Prop := fun p q =>
    q.2.2 < p.2.2 ∨ p.2.2 = q.2.2 ∧ (compare p.1 q.1).isLE
  have hR : (l.map identity).Pairwise R := h ▸ List.pairwise_map.2 hl
  exact (List.pairwise_map (R := R)).1 hR

theorem forall_power_of_identity {P : Int → Prop} (h : l.map identity = l'.map identity)
    (hl : ∀ v ∈ l', P v.votingPower) : ∀ v ∈ l, P v.votingPower := by
  intro v hv
  have hmem : v.identity ∈ l'.map identity := h ▸ List.mem_map_of_mem hv
  obtain ⟨w, hw, hid⟩ := List.mem_map.1 hmem
  have hpow : w.votingPower = v.votingPower := congrArg (fun p => p.2.2) hid
  exact hpow ▸ hl w hw

theorem identity_computeNewPriorities (updates vals : List Validator) (total : Int) :
    (computeNewPriorities updates vals total).map identity = updates.map identity := by
  rw [computeNewPriorities, List.map_map]
  refine List.map_congr_left fun u _ => ?_
  simp only [Function.comp_apply]
  cases findByAddress vals u.address <;> rfl

end Identity

namespace CachedValidatorSet
variable {vals vals' : CachedValidatorSet} {changes changes' merged : List Validator} {plan : Plan}
  {allow : Bool}

def Plan.prioritized (vals : CachedValidatorSet) (plan : Plan) : List Validator :=
  computeNewPriorities plan.updates vals.validators plan.tvpAfterUpdatesBeforeRemovals

theorem Plan.keys_prioritized (vals : CachedValidatorSet) (plan : Plan) :
    keys address (plan.prioritized vals) = keys address plan.updates :=
  keys_eq_of_identity (identity_computeNewPriorities ..)

theorem Valid.mergeChanges_eq (h : vals.Valid) (hp : plan.Passes vals changes) :
    ∃ merged, vals.mergeChanges plan = some merged ∧ Increasing address merged ∧
      merged.Perm (plan.prioritized vals ++ without address vals.validators changes) := by
  have hkeys := plan.keys_prioritized vals
  set us := plan.prioritized vals
  have hsort : Increasing address (sortByAddress vals.validators) :=
    sort_increasing h.nodup
  have husinc : Increasing address us := hp.split.updates_increasing.of_keys_eq hkeys
  have hperm := override_perm hsort husinc
  have hinc := override_increasing hsort husinc
  -- the removals are found among the validators that no update replaces
  have hfound : ∀ d ∈ plan.deletes,
      d.address ∈ keys address (override address (sortByAddress vals.validators)
        us) := by
    intro d hd
    obtain ⟨v, hv, haddr⟩ := List.mem_map.1 (hp.found d hd)
    have hnot : v.address ∉ keys address us := by
      rw [hkeys, haddr]
      intro hmem
      obtain ⟨u, hu, hua⟩ := List.mem_map.1 hmem
      exact hp.split.not_mem_deletes hu (hua ▸ List.mem_map_of_mem hd)
    refine List.mem_map.2 ⟨v, hperm.mem_iff.2 (List.mem_append_right _ ?_), haddr⟩
    exact mem_without.2 ⟨(sort_perm vals.validators).mem_iff.2 hv, hnot⟩
  have hremove := remove_eq hinc hp.split.deletes_increasing hfound
  refine ⟨_, hremove, hinc.filter _, ?_⟩
  have hus' : without address us plan.deletes = us := by
    refine without_eq_self fun v hv => ?_
    have hmem : v.address ∈ keys address plan.updates :=
      hkeys ▸ List.mem_map_of_mem hv
    obtain ⟨u, hu, hua⟩ := List.mem_map.1 hmem
    exact hua ▸ hp.split.not_mem_deletes hu
  have hboth : ∀ a, a ∈ keys address changes ↔
      a ∈ keys address us ∨ a ∈ keys address plan.deletes := by
    intro a
    rw [hkeys, hp.split.mem_keys]
  refine (without_perm hperm _).trans ?_
  rw [without_append, hus', without_without hboth]
  exact (without_perm (sort_perm vals.validators) changes).append_left us

theorem Valid.powerSum_merged (h : vals.Valid) (hp : plan.Passes vals changes) (hperm : merged.Perm
      (plan.prioritized vals ++ without address vals.validators changes)) : powerSum merged =
      plan.tvpAfterUpdatesBeforeRemovals - powerUnder vals.validators plan.deletes := by
  have hid : powerSum (plan.prioritized vals) = powerSum plan.updates :=
    powerSum_eq_of_identity (identity_computeNewPriorities ..)
  have hsplit : powerUnder vals.validators changes =
      powerUnder vals.validators plan.updates + powerUnder vals.validators plan.deletes := by
    rw [← sum_powerAt h.nodup hp.split.nodup,
      ← sum_powerAt h.nodup hp.split.updates_increasing.nodup,
      ← sum_powerAt h.nodup hp.split.deletes_increasing.nodup, ← List.sum_append, ← List.map_append]
    exact (hp.split.perm.map _).sum_eq.symm
  have hvals : powerUnder vals.validators changes +
      powerSum (without address vals.validators changes) = vals.total :=
    powerUnder_add_without vals.validators changes
  rw [powerSum_perm hperm, powerSum_append, hid, hp.tvp]
  omega

theorem Valid.merged_ne_nil (h : vals.Valid) (hp : plan.Passes vals changes) (hperm : merged.Perm
      (plan.prioritized vals ++ without address vals.validators changes)) : merged ≠ [] := by
  rintro rfl
  obtain ⟨hus, hkept⟩ := List.append_eq_nil_iff.1 (List.nil_perm.1 hperm)
  have hupdates : plan.updates = [] := by simpa [Plan.prioritized, computeNewPriorities] using hus
  have hall : ∀ v ∈ vals.validators, v.address ∈ keys address plan.deletes := by
    intro v hv
    by_contra hnot
    have hmem : v ∈ without address vals.validators changes := by
      refine mem_without.2 ⟨hv, fun hc => hnot ?_⟩
      simpa [hupdates, keys] using hp.split.mem_keys.1 hc
    rw [hkept] at hmem
    cases hmem
  have hsub : keys address vals.validators ⊆ keys address plan.deletes := by
    intro a ha
    obtain ⟨v, hv, rfl⟩ := List.mem_map.1 ha
    exact hall v hv
  have hle : vals.validators.length ≤ plan.deletes.length := by
    simpa [keys] using (List.Nodup.subperm h.nodup hsub).length_le
  have hge := length_deletes_le hp.split.deletes_increasing hp.found
  rcases hp.nonempty with hnew | hlen
  · simp [hupdates, numNewValidators] at hnew
  · omega

def settled (vals : CachedValidatorSet) (merged : List Validator) (sameType : Bool) :
    CachedValidatorSet :=
  { vals with
    validators := sortByVotingPower (shiftByAvgProposerPriority
      (rescalePriorities (priorityWindowSizeFactor * powerSum merged) merged))
    allKeysHaveSameType := sameType
    totalVotingPower := powerSum merged }

variable (vals) in
theorem settle_eq (hne : merged ≠ []) (hpow : ∀ v ∈ merged, 0 ≤ v.votingPower)
    (hle : powerSum merged ≤ maxTotalVotingPower) :
    vals.settle merged = match checkAllKeysHaveSameType merged with
      | none => .error .nilPubKey
      | some sameType => .ok (vals.settled merged sameType) := by
  have hsum : merged.foldlM addPower 0 = .ok (powerSum merged) := by
    simpa [powerSum] using foldlM_addPower merged 0 le_rfl hpow
      (by simpa [powerSum] using hle)
  unfold settle
  cases checkAllKeysHaveSameType merged with
  | none => rfl
  | some sameType =>
    simp only [hsum, if_neg hne]
    rfl

/-- What a call that passes the checks leads to. -/
structure Applied (vals : CachedValidatorSet) (changes : List Validator) (plan : Plan)
    (merged : List Validator) : Prop where
  passes : plan.Passes vals changes
  merged_eq : vals.mergeChanges plan = some merged
  increasing : Increasing address merged
  perm : merged.Perm (plan.prioritized vals ++ without address vals.validators changes)
  ne_nil : merged ≠ []
  power_pos : ∀ v ∈ merged, 0 < v.votingPower
  total_le : powerSum merged ≤ maxTotalVotingPower

theorem Valid.applied (h : vals.Valid) (hp : plan.Passes vals changes) :
    ∃ merged, Applied vals changes plan merged := by
  obtain ⟨merged, hmerged, hinc, hperm⟩ := h.mergeChanges_eq hp
  refine ⟨merged, hp, hmerged, hinc, hperm, h.merged_ne_nil hp hperm, ?_,
    (h.powerSum_merged hp hperm).trans_le hp.total_le⟩
  intro v hv
  rcases List.mem_append.1 (hperm.mem_iff.1 hv) with hv | hv
  · refine forall_power_of_identity (identity_computeNewPriorities ..) (fun u hu => ?_) v hv
    obtain ⟨hc, hzero⟩ := hp.split.mem_updates.1 hu
    exact lt_of_le_of_ne (hp.split.power u hc).1 (Ne.symm hzero)
  · exact h.power_pos v (mem_without.1 hv).1

/-- The outcomes of a nonempty change set on a valid set: an error without any change, a panic on a
validator without key, or the update. -/
theorem Valid.updateWithChangeSet_cases (h : vals.Valid) (hne : changes ≠ []) (allow : Bool) :
    (∃ err, vals.updateWithChangeSet changes allow = .ok (vals, some err)) ∨
      vals.updateWithChangeSet changes allow = .error .nilPubKey ∨
      ∃ plan merged sameType, Applied vals changes plan merged ∧
        checkAllKeysHaveSameType merged = some sameType ∧
        vals.updateWithChangeSet changes allow = .ok (vals.settled merged sameType, none) := by
  obtain ⟨r, hcheck, hpasses⟩ := h.checkChanges_eq changes allow
  cases r with
  | error err =>
    refine .inl ⟨err, ?_⟩
    simp [updateWithChangeSet, hne, hcheck]
  | ok plan =>
    obtain ⟨merged, ha⟩ := h.applied (hpasses plan rfl)
    have hsettle := settle_eq vals ha.ne_nil (fun v hv => (ha.power_pos v hv).le) ha.total_le
    cases hsame : checkAllKeysHaveSameType merged with
    | none =>
      refine .inr (.inl ?_)
      simp [updateWithChangeSet, hne, hcheck, ha.merged_eq, hsettle, hsame]
    | some sameType =>
      refine .inr (.inr ⟨plan, merged, sameType, ha, hsame, ?_⟩)
      simp [updateWithChangeSet, hne, hcheck, ha.merged_eq, hsettle, hsame]

theorem identity_settled (vals : CachedValidatorSet) (merged : List Validator) (sameType : Bool) :
    ((vals.settled merged sameType).validators.map identity).Perm (merged.map identity) := by
  refine ((List.perm_insertionSort ByVotingPower _).map _).trans (List.Perm.of_eq ?_)
  rw [identity_shiftByAvgProposerPriority, identity_rescalePriorities]

theorem Applied.valid (h : Applied vals changes plan merged) (sameType : Bool) :
    (vals.settled merged sameType).Valid := by
  have hperm := identity_settled vals merged sameType
  have hpow := hperm.map fun p => p.2.2
  have haddr := hperm.map Prod.fst
  simp only [List.map_map, Function.comp_def, identity] at hpow haddr
  have htotal : (vals.settled merged sameType).total = powerSum merged := hpow.sum_eq
  refine ⟨?_, htotal.trans_le h.total_le, htotal.symm, haddr.nodup_iff.2 h.increasing.nodup,
    List.pairwise_insertionSort ByVotingPower _⟩
  intro v hv
  obtain ⟨w, hw, hid⟩ := List.mem_map.1 (hpow.mem_iff.1 (List.mem_map_of_mem hv))
  exact hid ▸ h.power_pos w hw

theorem Applied.ne_nil' (h : Applied vals changes plan merged) (sameType : Bool) :
    (vals.settled merged sameType).validators ≠ [] := by
  intro hnil
  have hperm := identity_settled vals merged sameType
  rw [hnil] at hperm
  exact h.ne_nil (List.map_eq_nil_iff.1 (List.nil_perm.1 hperm))

end CachedValidatorSet

def CachedValidatorSet.entry (vals : CachedValidatorSet) (a : Bytes) :
    Option (Option PubKey × Int) :=
  (findByAddress vals.validators a).map fun v => (v.pubKey, v.votingPower)

/-- A map overridden by the changes of positive power, without the addresses of power 0. -/
def overridden (old : Bytes → Option (Option PubKey × Int)) (changes : List Validator) (a : Bytes) :
    Option (Option PubKey × Int) :=
  match findByAddress changes a with
  | none => old a
  | some c => if c.votingPower = 0 then none else some (c.pubKey, c.votingPower)

section Entry
variable {l l' : List Validator} {a : Bytes} {e : Option PubKey × Int}

theorem map_findByAddress_eq_some (hl : (keys address l).Nodup) :
    (findByAddress l a).map (fun v => (v.pubKey, v.votingPower)) = some e ↔
      (a, e) ∈ l.map identity := by
  rw [Option.map_eq_some_iff, List.mem_map]
  constructor
  · rintro ⟨v, hv, rfl⟩
    obtain ⟨hmem, rfl⟩ := (lookup_eq_some hl).1 hv
    exact ⟨v, hmem, rfl⟩
  · rintro ⟨v, hv, hid⟩
    obtain ⟨rfl, rfl⟩ := Prod.ext_iff.1 hid
    exact ⟨v, (lookup_eq_some hl).2 ⟨hv, rfl⟩, rfl⟩

end Entry

namespace CachedValidatorSet
variable {vals : CachedValidatorSet} {changes merged : List Validator} {plan : Plan}

theorem Applied.entry_eq (hvals : vals.Valid) (h : Applied vals changes plan merged)
    (sameType : Bool) (a : Bytes) :
    (vals.settled merged sameType).entry a = overridden vals.entry changes a := by
  have hid : (merged.map identity).Perm (plan.updates.map identity ++
      (without address vals.validators changes).map identity) := by
    have := h.perm.map identity
    rwa [List.map_append, Plan.prioritized, identity_computeNewPriorities] at this
  have hmem : ∀ e, (vals.settled merged sameType).entry a = some e ↔
      (∃ u ∈ plan.updates, u.identity = (a, e)) ∨
        ∃ v ∈ without address vals.validators changes, v.identity = (a, e) := by
    intro e
    rw [entry, map_findByAddress_eq_some (h.valid sameType).nodup,
      (identity_settled vals merged sameType).mem_iff, hid.mem_iff, List.mem_append, List.mem_map,
      List.mem_map]
  ext e
  rw [hmem, overridden]
  cases hc : findByAddress changes a with
  | none =>
    have hnot : a ∉ keys address changes := lookup_eq_none.1 hc
    rw [entry, map_findByAddress_eq_some hvals.nodup, List.mem_map]
    constructor
    · rintro (⟨u, hu, hid⟩ | ⟨v, hv, hid⟩)
      · refine absurd ?_ hnot
        exact List.mem_map.2 ⟨u, (h.passes.split.mem_updates.1 hu).1, congrArg Prod.fst hid⟩
      · exact ⟨v, (mem_without.1 hv).1, hid⟩
    · rintro ⟨v, hv, hid⟩
      have hva : v.address = a := congrArg Prod.fst hid
      exact .inr ⟨v, mem_without.2 ⟨hv, hva ▸ hnot⟩, hid⟩
  | some c =>
    obtain ⟨hcmem, rfl⟩ := (lookup_eq_some h.passes.split.nodup).1 hc
    have huniq : ∀ u ∈ changes, u.address = c.address → u = c := by
      intro u hu hua
      have := (lookup_eq_some h.passes.split.nodup).2 ⟨hu, hua⟩
      exact Option.some.inj (this.symm.trans hc)
    have hkept : ¬ ∃ v ∈ without address vals.validators changes,
        v.identity = (c.address, e) := by
      rintro ⟨v, hv, hid⟩
      refine (mem_without.1 hv).2 ?_
      exact List.mem_map.2 ⟨c, hcmem, (congrArg Prod.fst hid).symm⟩
    simp only [hkept, or_false]
    constructor
    · rintro ⟨u, hu, hid⟩
      obtain ⟨hu, hpow⟩ := h.passes.split.mem_updates.1 hu
      obtain rfl := huniq u hu (congrArg Prod.fst hid)
      rw [if_neg hpow]
      exact congrArg (fun p => some p.2) hid
    · intro he
      split_ifs at he with hzero
      refine ⟨c, h.passes.split.mem_updates.2 ⟨hcmem, hzero⟩, ?_⟩
      rw [identity, Option.some.inj he]

theorem valid_empty : CachedValidatorSet.empty.Valid := by
  constructor <;> simp [empty, total, maxTotalVotingPower, maxInt64, keys]

variable {vals' : CachedValidatorSet}

theorem Valid.updateWithChangeSet_valid {err : Option ChangeError}
    {allow : Bool} (h : vals.Valid) (hup : vals.updateWithChangeSet changes allow =
      .ok (vals', err)) :
    vals'.Valid := by
  rcases eq_or_ne changes [] with rfl | hne
  · cases hup
    exact h
  rcases h.updateWithChangeSet_cases hne allow with
    ⟨err, heq⟩ | heq | ⟨plan, merged, same, ha, -, heq⟩
  · cases heq.symm.trans hup
    exact h
  · cases heq.symm.trans hup
  · cases heq.symm.trans hup
    exact ha.valid same

theorem Valid.incrementProposerPriority_eq
    {times : Int} (h : vals.Valid) (hinc : vals.incrementProposerPriority times = .ok vals') :
    0 < times ∧ ∃ p, incrementTimes vals.total times.toNat (shiftByAvgProposerPriority
          (rescalePriorities (priorityWindowSizeFactor * vals.total) vals.validators),
          none) = .ok p ∧ p.1.map identity = vals.validators.map identity ∧
      vals' = { vals with validators := p.1, proposer := p.2 } := by
  unfold incrementProposerPriority at hinc
  by_cases hnil : vals.validators = []
  · simp [hnil] at hinc
  by_cases htimes : times ≤ 0
  · simp [hnil, htimes] at hinc
  simp only [hnil, htimes, if_false, h.withTotal_eq, h.cached, bind, Except.bind] at hinc
  cases hp : incrementTimes vals.total times.toNat
      (shiftByAvgProposerPriority (rescalePriorities
        (priorityWindowSizeFactor * vals.total) vals.validators), none) with
  | error err => simp [hp] at hinc
  | ok p =>
    have hid : (shiftByAvgProposerPriority (rescalePriorities
        (priorityWindowSizeFactor * vals.total) vals.validators)).map identity =
          vals.validators.map identity := by
      rw [identity_shiftByAvgProposerPriority, identity_rescalePriorities]
    simp only [hp, Except.ok.injEq] at hinc
    refine ⟨not_le.1 htimes, p, rfl, ?_, ?_⟩
    · rw [identity_incrementTimes _ (keys_eq_of_identity hid ▸ h.nodup) hp, hid]
    · rw [← hinc, h.cached]

theorem Valid.incrementProposerPriority_valid {times : Int}
    (h : vals.Valid) (hinc : vals.incrementProposerPriority times = .ok vals') : vals'.Valid := by
  obtain ⟨-, p, -, hid, rfl⟩ := h.incrementProposerPriority_eq hinc
  have hsum : powerSum p.1 = powerSum vals.validators := powerSum_eq_of_identity hid
  refine ⟨forall_power_of_identity hid h.power_pos, hsum.trans_le h.total_le, ?_,
    keys_eq_of_identity hid ▸ h.nodup, pairwise_byVotingPower_of_identity hid h.sorted⟩
  exact h.cached.trans hsum.symm

theorem newValidatorSet_eq_ok {valz : List Validator} (h : newValidatorSet valz = .ok vals) :
    ∃ vals₁, empty.updateWithChangeSet valz false = .ok (vals₁, none) ∧
      (valz = [] ∧ vals = vals₁ ∨ valz ≠ [] ∧ vals₁.incrementProposerPriority 1 = .ok vals) := by
  obtain ⟨⟨vals₁, err⟩, hup, h⟩ := except_bind_eq_ok.1 h
  cases err with
  | some err => cases h
  | none =>
    refine ⟨vals₁, hup, ?_⟩
    dsimp only at h
    split_ifs at h with hnil
    · exact .inl ⟨hnil, (Except.ok.inj h).symm⟩
    · exact .inr ⟨hnil, mapError_eq_ok.1 h⟩

theorem Reachable.valid (h : vals.Reachable) : vals.Valid := by
  induction h with
  | @new valz vals hnew =>
    obtain ⟨vals₁, hup, ⟨-, rfl⟩ | ⟨-, hinc⟩⟩ := newValidatorSet_eq_ok hnew
    · exact valid_empty.updateWithChangeSet_valid hup
    · exact (valid_empty.updateWithChangeSet_valid hup).incrementProposerPriority_valid hinc
  | update _ hup ih => exact ih.updateWithChangeSet_valid hup
  | increment _ hinc ih => exact ih.incrementProposerPriority_valid hinc

/-- Updates are exact and all-or-nothing. -/
theorem updates_exact (vals : CachedValidatorSet) (h : vals.Reachable) (changes : List Validator) :
    (∀ panic, vals.updateWithChangeSet changes true = .error panic → panic = .nilPubKey) ∧
    (∀ vals' err, vals.updateWithChangeSet changes true = .ok (vals', some err) → vals' = vals) ∧
    ∀ vals', vals.updateWithChangeSet changes true = .ok (vals', none) →
      (∀ a, vals'.entry a = overridden vals.entry changes a) ∧
      (vals.validators ≠ [] ∨ changes ≠ [] → vals'.validators ≠ []) ∧
      (vals'.validators.map (·.address)).Nodup ∧ vals'.validators.Pairwise ByVotingPower ∧
      vals'.totalVotingPower = (vals'.validators.map (·.votingPower)).sum ∧
      vals'.totalVotingPower ≤ maxTotalVotingPower ∧ ∀ changes', changes.Perm changes' →
        vals.updateWithChangeSet changes' true = .ok (vals', none) := by
  have hvalid := h.valid
  rcases eq_or_ne changes [] with rfl | hne
  · refine ⟨by simp [updateWithChangeSet], by simp [updateWithChangeSet], ?_⟩
    rintro vals' ⟨⟩
    refine ⟨fun a => rfl, by simp, hvalid.nodup, hvalid.sorted, hvalid.cached,
      hvalid.cached.trans_le hvalid.total_le, ?_⟩
    intro changes' hperm
    rw [List.nil_perm.1 hperm]
    rfl
  · rcases hvalid.updateWithChangeSet_cases hne true with
      ⟨err, heq⟩ | heq | ⟨plan, merged, same, ha, -, heq⟩
    · simp [heq]
    · simp [heq]
    · refine ⟨by simp [heq], by simp [heq], ?_⟩
      intro vals' hvals'
      cases heq.symm.trans hvals'
      have hv := ha.valid same
      refine ⟨ha.entry_eq hvalid same, fun _ => ha.ne_nil' same, hv.nodup, hv.sorted, hv.cached,
        hv.cached.trans_le hv.total_le, ?_⟩
      intro changes' hperm
      have hne' : changes' ≠ [] := fun hnil => hne (List.perm_nil.1 (hnil ▸ hperm))
      rw [← heq]
      simp only [updateWithChangeSet, if_neg hne, if_neg hne', checkChanges,
        processChanges_perm ha.passes.split.nodup hperm]

def sampleValidator (n : UInt8) (power priority : Int) : Validator :=
  ⟨List.replicate 20 n, some ⟨.ed25519, List.replicate 32 n⟩, power, priority⟩

/-- Three validators after `NewValidatorSet`: the one with the most power proposes. -/
def sampleSet : CachedValidatorSet :=
  ⟨⟨[sampleValidator 3 9 (-6), sampleValidator 1 5 5, sampleValidator 2 1 1],
    some (sampleValidator 3 9 (-6)), true⟩, 15⟩

theorem sampleSet_new : newValidatorSet
    [sampleValidator 1 5 0, sampleValidator 2 1 0, sampleValidator 3 9 0] = .ok sampleSet := by
  decide +kernel

/-- One validator is removed, one changes its power and one is added. -/
def sampleChanges : List Validator :=
  [sampleValidator 4 2 0, sampleValidator 3 0 0, sampleValidator 2 7 0]

def sampleUpdated : CachedValidatorSet :=
  ⟨⟨[sampleValidator 2 7 4, sampleValidator 1 5 6, sampleValidator 4 2 (-8)],
    some (sampleValidator 3 9 (-6)), true⟩, 14⟩

theorem sampleSet_updated :
    sampleSet.updateWithChangeSet sampleChanges true = .ok (sampleUpdated, none) := by
  decide +kernel

theorem updates_exact_sampleSet :
    sampleSet.Reachable ∧ sampleSet.updateWithChangeSet sampleChanges.reverse true =
        .ok (sampleUpdated, none) ∧
      ∀ a, sampleUpdated.entry a = overridden sampleSet.entry sampleChanges a := by
  have hreach : sampleSet.Reachable := .new sampleSet_new
  obtain ⟨hentry, -, -, -, -, -, horder⟩ :=
    (updates_exact sampleSet hreach sampleChanges).2.2 sampleUpdated sampleSet_updated
  exact ⟨hreach, horder _ (List.reverse_perm _).symm, hentry⟩

end CachedValidatorSet

end CelestiaCore
