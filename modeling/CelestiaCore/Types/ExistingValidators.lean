import CelestiaCore.Types.ValidatorProto
import CelestiaCore.Types.VoteSet

/-!
# Validator sets rebuilt from their validators

`ValidatorSetFromExistingValidators` infers the proposer from the priorities.
-/
namespace CelestiaCore
open Wire Keyed ValidatorSet

/-- The one of two validators that loses the comparison. -/
def lowerPriority (previousProposer : Option Validator) (val : Validator) :
    Except String (Option Validator) :=
  match previousProposer with
  | none => .ok (some val)
  | some p => do
    let winner ← compareProposerPriority (some (0, p)) (1, val)
    .ok (some (if winner.1 = 0 then val else p))

def findPreviousProposer (vals : List Validator) : Except String (Option Validator) :=
  vals.foldlM lowerPriority none

/-- The loop over the validators, with the addresses already seen. -/
def checkExisting (crypto : Crypto) : List Validator → List Bytes → Except String Unit
  | [], _ => .ok ()
  | val :: valz, seenAddresses => do
    (val.validateBasic crypto).mapError fun e => s!"can't create validator set: {e}"
    reject (val.address ∈ seenAddresses) s!"duplicate validator address {val.address}"
    checkExisting crypto valz (val.address :: seenAddresses)

def validatorSetFromExistingValidators (crypto : Crypto) (valz : List Validator) :
    Except String CachedValidatorSet := do
  reject (valz = []) "validator set is empty"
  checkExisting crypto valz []
  match checkAllKeysHaveSameType valz with
  | none => .error "nil public key"
  | some sameType =>
    let previousProposer ← findPreviousProposer valz
    let sum ← valz.foldlM addPower 0
    .ok ⟨⟨sortByVotingPower valz, previousProposer, sameType⟩, sum⟩

section Rebuild
variable {crypto : Crypto} {valz : List Validator}

/-- All others come before `p` in the choice of a proposer. -/
def Lowest (valz : List Validator) (p : Validator) : Prop := ∀ v ∈ valz, v = p ∨ v.Beats p

theorem findPreviousProposer_eq (hnodup : (keys Validator.address valz).Nodup) (hne : valz ≠ []) :
    ∃ p ∈ valz, findPreviousProposer valz = .ok (some p) ∧ Lowest valz p := by
  obtain ⟨first, rest, rfl⟩ := List.exists_cons_of_ne_nil hne
  obtain ⟨p, hp, hfold, hall⟩ := foldlM_choose (R := fun v w => w.Beats v)
    (fun _ _ _ h h' => h'.trans h) (f := lowerPriority) (fun v w hvw =>
      (compareProposerPriority_eq (0, v) (1, w) hvw).symm.imp
        (fun h => ⟨h.1, by simp [lowerPriority, h.2]⟩)
        fun h => ⟨h.1, by simp [lowerPriority, h.2]⟩) rest first hnodup
  exact ⟨p, hp, hfold, hall⟩

theorem Lowest.unique {p q : Validator} (h : Lowest valz p) (h' : Lowest valz q) (hp : p ∈ valz)
    (hq : q ∈ valz) : p = q := by
  rcases h q hq with rfl | hbeats
  · rfl
  rcases h' p hp with rfl | hbeats'
  · rfl
  rcases hbeats.trans hbeats' with hlt | ⟨-, hlt⟩
  · exact absurd hlt (lt_irrefl _)
  · exact absurd hlt (by simp [Std.ReflCmp.compare_self])

theorem checkExisting_eq_ok {seen : List Bytes} : checkExisting crypto valz seen = .ok () ↔
    (∀ v ∈ valz, v.validateBasic crypto = .ok ()) ∧ (keys Validator.address valz).Nodup ∧
      ∀ v ∈ valz, v.address ∉ seen := by
  induction valz generalizing seen with
  | nil => simp [checkExisting, keys]
  | cons v valz ih =>
    simp only [checkExisting, check_bind_eq_ok, mapError_eq_ok, reject_eq_ok, ih, keys,
      List.map_cons, List.nodup_cons, List.mem_cons, not_or, List.mem_map, not_exists, not_and,
      forall_and]
    grind

end Rebuild

namespace CachedValidatorSet
variable {vals vals' : CachedValidatorSet}

theorem Valid.fromExisting (crypto : Crypto) (h : vals.Valid) (hne : vals.validators ≠ [])
    (hbasic : ∀ v ∈ vals.validators, v.validateBasic crypto = .ok ()) :
    ∃ p ∈ vals.validators, Lowest vals.validators p ∧ ∃ same,
      validatorSetFromExistingValidators crypto vals.validators =
        .ok ⟨⟨vals.validators, some p, same⟩, vals.totalVotingPower⟩ := by
  obtain ⟨p, hp, hfind, hlow⟩ := findPreviousProposer_eq h.nodup hne
  have hcheck : checkExisting crypto vals.validators [] = .ok () :=
    checkExisting_eq_ok.2 ⟨hbasic, h.nodup, by simp⟩
  have hsum : vals.validators.foldlM addPower 0 = .ok vals.totalVotingPower := by
    rw [h.cached, ← zero_add vals.total]
    exact foldlM_addPower _ 0 le_rfl (fun v hv => (h.power_pos v hv).le)
      ((zero_add _).trans_le h.total_le)
  have hsort : sortByVotingPower vals.validators = vals.validators := h.sorted.insertionSort_eq
  obtain ⟨same, hsame⟩ : ∃ same, checkAllKeysHaveSameType vals.validators = some same :=
    ⟨_, checkAllKeysHaveSameType_eq fun v hv => Validator.pubKey_of_validateBasic (hbasic v hv)⟩
  refine ⟨p, hp, hlow, same, ?_⟩
  simp [validatorSetFromExistingValidators, hcheck, hsame, hfind, hsum, hsort, reject, hne]

/-- The rebuilt set has the same order and total, and the same proposer iff that has the lowest
priority. -/
theorem rebuilt_exactly_iff (crypto : Crypto) (vals vals' : CachedValidatorSet) (h : vals.Reachable)
    (times : Int) (hinc : vals.incrementProposerPriority times = .ok vals') :
    ((∀ v ∈ vals'.validators, v.validateBasic crypto = .ok ()) ↔
      ∃ set, validatorSetFromExistingValidators crypto vals'.validators = .ok set ∧
        set.validators = vals'.validators ∧ set.totalVotingPower = vals'.totalVotingPower) ∧
    ∀ set, validatorSetFromExistingValidators crypto vals'.validators = .ok set →
      (set.proposer = vals'.proposer ↔
        ∃ p, vals'.proposer = some p ∧ Lowest vals'.validators p) := by
  have hvalid := h.valid.incrementProposerPriority_valid hinc
  have hvals : vals.validators ≠ [] := fun hnil => by simp [incrementProposerPriority, hnil] at hinc
  obtain ⟨w, hw, hid, ⟨q, hq, hmem⟩, -⟩ :=
    h.valid.increments hvals (h.valid.incrementProposerPriority_eq hinc).1
  obtain rfl := Except.ok.inj (hinc.symm.trans hw)
  have hne : vals'.validators ≠ [] := List.ne_nil_of_mem hmem
  have hbasic {set : CachedValidatorSet}
      (hset : validatorSetFromExistingValidators crypto vals'.validators = .ok set) :
      ∀ v ∈ vals'.validators, v.validateBasic crypto = .ok () := by
    simp only [validatorSetFromExistingValidators, check_bind_eq_ok] at hset
    exact (checkExisting_eq_ok.1 hset.2.1).1
  refine ⟨⟨fun hall => ?_, ?_⟩, fun set hset => ?_⟩
  · obtain ⟨p, -, -, same, hset⟩ := hvalid.fromExisting crypto hne hall
    exact ⟨_, hset, rfl, rfl⟩
  · rintro ⟨set, hset, -⟩
    exact hbasic hset
  · obtain ⟨p, hp, hlow, same, hset'⟩ := hvalid.fromExisting crypto hne (hbasic hset)
    obtain rfl := Except.ok.inj (hset'.symm.trans hset)
    rw [hq]
    constructor
    · rintro ⟨⟩
      exact ⟨q, rfl, hlow⟩
    · rintro ⟨_, ⟨⟩, hlow'⟩
      exact congrArg some (hlow.unique hlow' hp hmem)

def prefixCrypto : Crypto := ⟨fun pk => pk.bytes.take 20, fun _ _ _ => true⟩

/-- Validators of power 3 and 1, with their priorities and the proposer. -/
def unevenPair (p q : Int) (proposer : Validator) : CachedValidatorSet :=
  ⟨⟨[sampleValidator 2 3 p, sampleValidator 1 1 q], some proposer, true⟩, 4⟩

theorem unevenPair_new : newValidatorSet [sampleValidator 1 1 0, sampleValidator 2 3 0] =
    .ok (unevenPair (-1) 1 (sampleValidator 2 3 (-1))) := by decide +kernel

theorem rebuilt_exactly_second : ∃ set, validatorSetFromExistingValidators prefixCrypto
        (unevenPair 2 (-2) (sampleValidator 1 1 (-2))).validators = .ok set ∧
      set.validators = [sampleValidator 2 3 2, sampleValidator 1 1 (-2)] ∧
      set.totalVotingPower = 4 :=
  (rebuilt_exactly_iff prefixCrypto _ _ (.new unevenPair_new) 1 (by decide +kernel)).1.1
    (by decide +kernel)

/-- After the third increment the proposer has the higher priority of the two. -/
theorem rebuilt_proposer_differs : newValidatorSet [sampleValidator 1 1 0, sampleValidator 2 3 0] =
        .ok (unevenPair (-1) 1 (sampleValidator 2 3 (-1))) ∧
      (unevenPair (-1) 1 (sampleValidator 2 3 (-1))).incrementProposerPriority 2 =
        .ok (unevenPair 1 (-1) (sampleValidator 2 3 1)) ∧
      validatorSetFromExistingValidators prefixCrypto
        (unevenPair 1 (-1) (sampleValidator 2 3 1)).validators =
        .ok (unevenPair 1 (-1) (sampleValidator 1 1 (-1))) :=
  ⟨unevenPair_new, by decide +kernel⟩

end CachedValidatorSet

end CelestiaCore
