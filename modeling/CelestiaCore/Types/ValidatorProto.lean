import CelestiaCore.Types.ChangeSet

/-!
# Validator sets as they are stored

`ToProto` and `ValidatorSetFromProto` of `types/validator_set.go`, and the sets that are stored and
loaded unchanged.
-/
namespace CelestiaCore
open Wire Keyed ValidatorSet List
open Validator (identity address)

def newValidator (crypto : Crypto) (pubKey : PubKey) (votingPower : Int) : Validator :=
  ⟨crypto.address pubKey, some pubKey, votingPower, 0⟩

/-- The message has the validators and the proposer; the other fields are computed on loading. -/
def ValidatorSet.toProto (vals : ValidatorSet) : Except String ValidatorSet :=
  if vals.validators = [] then .ok ⟨[], none, true⟩
  else if vals.validators.any (·.pubKey.isNone) then .error "toProto: key type is not supported"
  else
    match vals.proposer with
    | none => .error "toProto: validatorSet proposer error: nil validator"
    | some p =>
      if p.pubKey.isNone
        then .error "toProto: validatorSet proposer error: key type is not supported"
      else .ok vals

def validatorSetFromProto (crypto : Crypto) (vals : ValidatorSet) :
    Except String CachedValidatorSet :=
  match checkAllKeysHaveSameType vals.validators with
  | none => .error "validator does not have a public key"
  | some sameType =>
    if vals.proposer.isNone then .error "fromProto: validatorSet proposer error: nil validator"
    else
      match vals.totalVotingPower with
      | .error err => .error err
      | .ok total =>
        match vals.validateBasic crypto with
        | .error err => .error err
        | .ok () => .ok ⟨⟨vals.validators, vals.proposer, sameType⟩, total⟩

def Validator.FromKey (crypto : Crypto) (v : Validator) : Prop :=
  ∃ pk : PubKey, v.pubKey = some pk ∧ pk.bytes.length = pk.type.pubKeySize ∧
    v.address = crypto.address pk

theorem Validator.FromKey.of_identity {crypto : Crypto} {v w : Validator} (hv : v.FromKey crypto)
    (h : w.identity = v.identity) : w.FromKey crypto := by
  obtain ⟨pk, hpk, hsize, haddr⟩ := hv
  have hkey : w.pubKey = v.pubKey := congrArg (fun p => p.2.1) h
  have haddr' : w.address = v.address := congrArg Prod.fst h
  exact ⟨pk, hkey.trans hpk, hsize, haddr'.trans haddr⟩

theorem Validator.FromKey.validateBasic_eq {crypto : Crypto} {v : Validator} (hv : v.FromKey crypto)
    (hpow : 0 ≤ v.votingPower) : v.validateBasic crypto = .ok () := by
  obtain ⟨pk, hpk, hsize, haddr⟩ := hv
  simp only [Validator.validateBasic, hpk, if_neg (not_lt.2 hpow)]
  rw [if_neg (not_not.2 hsize), if_neg (not_not.2 haddr)]

section SameType
variable {vals : List Validator}

theorem sameKeyTypeFrom_eq (t : KeyType) (h : ∀ v ∈ vals, v.pubKey.isSome) :
    sameKeyTypeFrom vals (some t) = some (decide (∀ v ∈ vals, v.pubKey.map (·.type) = some t)) := by
  induction vals with
  | nil => simp [sameKeyTypeFrom]
  | cons v vals ih =>
    obtain ⟨pk, hpk⟩ := Option.isSome_iff_exists.1 (h v mem_cons_self)
    have ih := ih fun w hw => h w (mem_cons_of_mem _ hw)
    simp only [sameKeyTypeFrom, hpk]
    by_cases ht : pk.type = t
    · simp [ht, ih, hpk]
    · simp [ht, hpk]

theorem checkAllKeysHaveSameType_eq (h : ∀ v ∈ vals, v.pubKey.isSome) :
    checkAllKeysHaveSameType vals =
      some (decide (∀ v ∈ vals, ∀ w ∈ vals, v.pubKey.map (·.type) = w.pubKey.map (·.type))) := by
  cases vals with
  | nil => simp [checkAllKeysHaveSameType, sameKeyTypeFrom]
  | cons v vals =>
    obtain ⟨pk, hpk⟩ := Option.isSome_iff_exists.1 (h v mem_cons_self)
    simp only [checkAllKeysHaveSameType, sameKeyTypeFrom, hpk]
    rw [sameKeyTypeFrom_eq pk.type fun w hw => h w (mem_cons_of_mem _ hw)]
    congr 1
    rw [decide_eq_decide]
    constructor
    · intro hall
      have hall' : ∀ w ∈ v :: vals, w.pubKey.map (·.type) = some pk.type := by
        intro w hw
        rcases mem_cons.1 hw with rfl | hw
        · rw [hpk]; rfl
        · exact hall w hw
      exact fun w hw w' hw' => (hall' w hw).trans (hall' w' hw').symm
    · intro hall w hw
      rw [← hall v mem_cons_self w (mem_cons_of_mem _ hw), hpk]
      rfl

theorem checkAllKeysHaveSameType_congr {vals' : List Validator} (h : ∀ v ∈ vals, v.pubKey.isSome)
    (hkeys : (vals'.map identity).Perm (vals.map identity)) :
    checkAllKeysHaveSameType vals' = checkAllKeysHaveSameType vals := by
  have hmem : ∀ o, o ∈ vals'.map (·.pubKey) ↔ o ∈ vals.map (·.pubKey) := by
    intro o
    have := (hkeys.map fun p => p.2.1).mem_iff (a := o)
    simpa [identity, Function.comp_def] using this
  have h' : ∀ v ∈ vals', v.pubKey.isSome := by
    intro v hv
    obtain ⟨w, hw, heq⟩ := mem_map.1 ((hmem v.pubKey).1 (mem_map_of_mem hv))
    rw [← heq]
    exact h w hw
  rw [checkAllKeysHaveSameType_eq h, checkAllKeysHaveSameType_eq h']
  congr 1
  rw [decide_eq_decide]
  have hforall : ∀ (l : List Validator), (∀ v ∈ l, ∀ w ∈ l,
      v.pubKey.map (·.type) = w.pubKey.map (·.type)) ↔ ∀ o ∈ l.map (·.pubKey),
        ∀ o' ∈ l.map (·.pubKey),
      o.map (·.type) = o'.map (·.type) := by
    intro l
    simp
  rw [hforall, hforall]
  simp only [hmem]

end SameType

namespace CachedValidatorSet

/-- A validator set as it is in force: it is stored and loaded unchanged. -/
structure Sound (crypto : Crypto) (vals : CachedValidatorSet) : Prop where
  valid : vals.Valid
  ne_nil : vals.validators ≠ []
  fromKey : ∀ v ∈ vals.validators, v.FromKey crypto
  proposer : ∃ p, vals.proposer = some p ∧ p ∈ vals.validators
  sameType : checkAllKeysHaveSameType vals.validators = some vals.allKeysHaveSameType

section Sound
variable {crypto : Crypto} {vals vals' : CachedValidatorSet}

theorem Sound.pubKey_isSome (h : vals.Sound crypto) {v : Validator} (hv : v ∈ vals.validators) :
    v.pubKey.isSome := by
  obtain ⟨pk, hpk, -⟩ := h.fromKey v hv
  rw [hpk]
  rfl

theorem Sound.validateBasic_eq (h : vals.Sound crypto) :
    vals.toValidatorSet.validateBasic crypto = .ok () := by
  obtain ⟨p, hp, hmem⟩ := h.proposer
  have hzip : vals.validators.zipIdx.forM (fun q => (q.1.validateBasic crypto).mapError
      fun e => s!"invalid validator #{q.2}: {e}") = .ok () := by
    refine forM_eq_ok fun q hq => ?_
    have hq := fst_mem_of_mem_zipIdx hq
    rw [(h.fromKey _ hq).validateBasic_eq (h.valid.power_pos _ hq).le]
    rfl
  have hhas : vals.toValidatorSet.hasAddress p.address = true :=
    any_eq_true.2 ⟨p, hmem, decide_eq_true rfl⟩
  rw [validateBasic, if_neg h.ne_nil]
  simp only [hzip, hp, (h.fromKey p hmem).validateBasic_eq (h.valid.power_pos p hmem).le,
    hhas, ok_bind]
  rfl

theorem fromProto_eq_ok {pb : ValidatorSet} : validatorSetFromProto crypto pb = .ok vals ↔
    checkAllKeysHaveSameType pb.validators = some vals.allKeysHaveSameType ∧ pb.proposer.isSome ∧
      pb.totalVotingPower = .ok vals.totalVotingPower ∧ pb.validateBasic crypto = .ok () ∧
      vals.toValidatorSet = ⟨pb.validators, pb.proposer, vals.allKeysHaveSameType⟩ := by
  obtain ⟨⟨validators, proposer, sameType⟩, total⟩ := vals
  unfold validatorSetFromProto
  cases checkAllKeysHaveSameType pb.validators <;> cases pb.proposer <;>
    cases pb.totalVotingPower <;> cases pb.validateBasic crypto <;> simp
  grind

theorem Sound.fromProto_eq (h : vals.Sound crypto) :
    validatorSetFromProto crypto vals.toValidatorSet = .ok vals := by
  obtain ⟨p, hp, -⟩ := h.proposer
  have htotal : vals.toValidatorSet.totalVotingPower = .ok vals.totalVotingPower := by
    rw [h.valid.cached]
    exact h.valid.bounded.totalVotingPower_eq
  exact fromProto_eq_ok.2 ⟨h.sameType, Option.isSome_of_mem hp, htotal, h.validateBasic_eq, rfl⟩

def Loaded (crypto : Crypto) (vals : CachedValidatorSet) : Prop :=
  validatorSetFromProto crypto vals.toValidatorSet = .ok vals

theorem Sound.loaded (h : vals.Sound crypto) : vals.Loaded crypto := h.fromProto_eq

theorem loaded_of_fromProto {pb : ValidatorSet} (h : validatorSetFromProto crypto pb = .ok vals) :
    vals.Loaded crypto := by
  obtain ⟨htype, hproposer, htotal, hbasic, heq⟩ := fromProto_eq_ok.1 h
  have hpb : vals.toValidatorSet = { pb with allKeysHaveSameType := vals.allKeysHaveSameType } :=
    heq
  refine fromProto_eq_ok.2 ⟨?_, ?_, ?_, ?_, rfl⟩ <;> rw [hpb]
  · exact htype
  · exact hproposer
  · exact htotal
  · exact hbasic

theorem Loaded.toProto_eq (h : vals.Loaded crypto) :
    vals.toValidatorSet.toProto = .ok vals.toValidatorSet := by
  obtain ⟨-, -, -, hbasic, -⟩ := fromProto_eq_ok.1 h
  obtain ⟨hne, hall, p, hp, hproposer⟩ := validateBasic_eq_ok hbasic
  have hany : vals.validators.any (·.pubKey.isNone) = false := by
    rw [any_eq_false]
    intro v hv
    simpa using Option.isSome_iff_ne_none.1 (Validator.pubKey_of_validateBasic (hall v hv))
  have hsome := Option.isNone_eq_false_iff.2 (Validator.pubKey_of_validateBasic hproposer)
  rw [toProto, if_neg hne, hany, hp]
  simp [hsome]

theorem Sound.toProto_eq (h : vals.Sound crypto) :
    vals.toValidatorSet.toProto = .ok vals.toValidatorSet := h.loaded.toProto_eq

theorem ne_nil_of_identity {l l' : List Validator} (h : l.map identity = l'.map identity)
    (hne : l' ≠ []) : l ≠ [] := by
  rintro rfl
  exact hne (map_eq_nil_iff.1 h.symm)

theorem incrementTimes_succeeds (total : Int) (n : ℕ) {p : List Validator × Option Validator}
    (hnodup : (keys address p.1).Nodup) (hne : p.1 ≠ []) :
    ∃ q, incrementTimes total (n + 1) p = .ok q ∧ ∃ v, q.2 = some v ∧ v ∈ q.1 := by
  induction n generalizing p with
  | zero =>
    obtain ⟨i, v, hi, -, -, heq⟩ := incrementOnce_eq total hnodup hne
    rw [incrementTimes, heq]
    exact ⟨_, rfl, _, rfl, mem_set (List.getElem?_eq_some_iff.1 hi).1 _⟩
  | succ n ih =>
    obtain ⟨i, v, hi, -, -, heq⟩ := incrementOnce_eq total hnodup hne
    have hid := identity_incrementOnce hnodup heq
    obtain ⟨q, hq, helected⟩ := ih (keys_eq_of_identity hid ▸ hnodup)
      (ne_nil_of_identity hid hne)
    refine ⟨q, ?_, helected⟩
    rw [incrementTimes, heq]
    exact hq

theorem Valid.increments (h : vals.Valid) (hne : vals.validators ≠ []) {times : Int}
    (htimes : 0 < times) : ∃ vals', vals.incrementProposerPriority times = .ok vals' ∧
      vals'.validators.map identity = vals.validators.map identity ∧
      (∃ p, vals'.proposer = some p ∧ p ∈ vals'.validators) ∧
      vals'.allKeysHaveSameType = vals.allKeysHaveSameType := by
  obtain ⟨n, hn⟩ : ∃ n : ℕ, times.toNat = n + 1 := ⟨times.toNat - 1, by omega⟩
  set centered := shiftByAvgProposerPriority (rescalePriorities
    (priorityWindowSizeFactor * vals.total) vals.validators) with hcentered
  have hid : centered.map identity = vals.validators.map identity := by
    rw [hcentered, identity_shiftByAvgProposerPriority, identity_rescalePriorities]
  obtain ⟨q, hq, helected⟩ := incrementTimes_succeeds vals.total n (p := (centered, none))
    (keys_eq_of_identity hid ▸ h.nodup) (ne_nil_of_identity hid hne)
  rw [← hn] at hq
  have hinc : vals.incrementProposerPriority times =
      .ok { vals with validators := q.1, proposer := q.2 } := by
    unfold incrementProposerPriority
    simp only [hne, not_le.2 htimes, if_false, h.withTotal_eq, h.cached, bind, Except.bind,
      ← hcentered, hq]
  exact ⟨_, hinc, (h.incrementProposerPriority_eq hinc).2.elim fun p hp => by
    rw [hp.2.2]
    exact hp.2.1, helected, rfl⟩

theorem Sound.increments (h : vals.Sound crypto) {times : Int} (htimes : 0 < times) :
    ∃ vals', vals.incrementProposerPriority times = .ok vals' ∧ vals'.Sound crypto ∧
      vals'.validators.map identity = vals.validators.map identity := by
  obtain ⟨vals', hinc, hid, helected, htype⟩ := h.valid.increments h.ne_nil htimes
  refine ⟨vals', hinc, ⟨h.valid.incrementProposerPriority_valid hinc,
    ne_nil_of_identity hid h.ne_nil, ?_, helected, ?_⟩, hid⟩
  · intro v hv
    obtain ⟨w, hw, heq⟩ := mem_map.1 (hid ▸ mem_map_of_mem (f := identity) hv)
    exact (h.fromKey w hw).of_identity heq.symm
  · rw [checkAllKeysHaveSameType_congr (fun v hv => h.pubKey_isSome hv) (List.Perm.of_eq hid),
      htype]
    exact h.sameType

theorem Valid.updateWithChangeSet_ok {changes : List Validator} {allow : Bool} (h : vals.Valid)
    (hne : changes ≠ []) (hup : vals.updateWithChangeSet changes allow = .ok (vals', none)) :
    ∃ plan merged sameType, Applied vals changes plan merged ∧
      checkAllKeysHaveSameType merged = some sameType ∧ vals' = vals.settled merged sameType := by
  rcases h.updateWithChangeSet_cases hne allow with
    ⟨err, heq⟩ | heq | ⟨plan, merged, sameType, ha, hsame, heq⟩
  · cases heq.symm.trans hup
  · cases heq.symm.trans hup
  · cases heq.symm.trans hup
    exact ⟨plan, merged, sameType, ha, hsame, rfl⟩

theorem Applied.fromKey {changes merged : List Validator} {plan : Plan}
    (ha : Applied vals changes plan merged) (hkeys : ∀ v ∈ vals.validators, v.FromKey crypto)
    (hchanges : ∀ v ∈ changes, v.FromKey crypto) : ∀ v ∈ merged, v.FromKey crypto := by
  intro v hv
  rcases mem_append.1 (ha.perm.mem_iff.1 hv) with hv | hv
  · have hid : (plan.prioritized vals).map identity =
        plan.updates.map identity := identity_computeNewPriorities ..
    obtain ⟨u, hu, heq⟩ := mem_map.1 (hid ▸ mem_map_of_mem (f := identity) hv)
    exact (hchanges u (ha.passes.split.mem_updates.1 hu).1).of_identity heq.symm
  · exact hkeys v (mem_without.1 hv).1

theorem Valid.sound_of_update {changes : List Validator} {allow : Bool}
    {vals'' : CachedValidatorSet}
    (h : vals.Valid) (hkeys : ∀ v ∈ vals.validators, v.FromKey crypto)
    (hchanges : ∀ v ∈ changes, v.FromKey crypto) (hne : changes ≠ [])
    (hup : vals.updateWithChangeSet changes allow = .ok (vals', none))
    (hinc : vals'.incrementProposerPriority 1 = .ok vals'') : vals''.Sound crypto := by
  obtain ⟨plan, merged, sameType, ha, hsame, rfl⟩ := h.updateWithChangeSet_ok hne hup
  have hvalid := ha.valid sameType
  obtain ⟨w, hw, hid, helected, htype⟩ := hvalid.increments (ha.ne_nil' sameType) Int.one_pos
  obtain rfl := Except.ok.inj (hinc.symm.trans hw)
  have hperm := (List.Perm.of_eq hid).trans (identity_settled vals merged sameType)
  have hfrom := ha.fromKey hkeys hchanges
  constructor
  case valid => exact hvalid.incrementProposerPriority_valid hinc
  case ne_nil => exact ne_nil_of_identity hid (ha.ne_nil' sameType)
  case fromKey =>
    intro v hv
    obtain ⟨u, hu, heq⟩ := mem_map.1 (hperm.mem_iff.1 (mem_map_of_mem hv))
    exact (hfrom u hu).of_identity heq.symm
  case proposer => exact helected
  case sameType =>
    have hsome : ∀ v ∈ merged, v.pubKey.isSome := by
      intro v hv
      obtain ⟨pk, hpk, -⟩ := hfrom v hv
      rw [hpk]
      rfl
    rw [checkAllKeysHaveSameType_congr hsome hperm, hsame, htype]
    rfl

theorem sound_newValidatorSet {valz : List Validator} (hkeys : ∀ v ∈ valz, v.FromKey crypto)
    (hne : valz ≠ []) (hnew : newValidatorSet valz = .ok vals) : vals.Sound crypto := by
  obtain ⟨vals', hup, ⟨hnil, -⟩ | ⟨-, hinc⟩⟩ := newValidatorSet_eq_ok hnew
  · exact absurd hnil hne
  · exact valid_empty.sound_of_update (nofun) hkeys hne hup hinc

end Sound

end CachedValidatorSet

end CelestiaCore
