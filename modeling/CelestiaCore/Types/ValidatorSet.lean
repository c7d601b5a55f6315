import CelestiaCore.Types.Canonical

/-!
# Validators and validator sets

`types/validator.go` and `types/validator_set.go`: lookups, the total voting power and the
rotation of the proposer. The cached total is the function that fills it.
-/
namespace CelestiaCore
open Wire List

def maxInt64 : Int := 9223372036854775807
def minInt64 : Int := -9223372036854775808
def maxInt32 : Int := 2147483647

def wrap64 (n : Int) : Int := n.bmod (2 ^ 64)

theorem wrap64_of_range {n : Int} (hlo : -2 ^ 63 ≤ n) (hhi : n < 2 ^ 63) : wrap64 n = n := by
  simp only [wrap64, Int.bmod]
  omega

inductive KeyType where
  | ed25519
  | secp256k1
  | sr25519
  deriving DecidableEq, Repr

structure PubKey where
  type : KeyType
  bytes : Bytes
  deriving DecidableEq, Repr

/-- The operations of a public key, which the crypto libraries provide. -/
structure Crypto where
  address : PubKey → Bytes
  verifySignature : PubKey → Bytes → Bytes → Bool

structure Validator where
  address : Bytes
  pubKey : Option PubKey
  votingPower : Int
  proposerPriority : Int
  deriving DecidableEq, Repr

structure ValidatorSet where
  validators : List Validator
  proposer : Option Validator
  allKeysHaveSameType : Bool
  deriving DecidableEq, Repr

def KeyType.pubKeySize : KeyType → Nat
  | .ed25519 => 32
  | .secp256k1 => 33
  | .sr25519 => 32

def Validator.validateBasic (crypto : Crypto) (v : Validator) : Except String Unit :=
  match v.pubKey with
  | none => .error "validator does not have a public key"
  | some pk =>
    if v.votingPower < 0 then .error "validator has negative voting power"
    else if pk.bytes.length ≠ pk.type.pubKeySize then
      .error s!"validator public key has size {pk.bytes.length}, want {pk.type.pubKeySize}"
    else if v.address ≠ crypto.address pk then
      .error "validator address is incorrectly derived from pubkey"
    else .ok ()

/-- `safeAddClip` on `int64`. -/
def safeAddClip (a b : Int) : Int := max minInt64 (min maxInt64 (a + b))

/-- `safeSubClip` on `int64`. -/
def safeSubClip (a b : Int) : Int := max minInt64 (min maxInt64 (a - b))

def maxTotalVotingPower : Int := maxInt64 / 8

theorem forM_ok {α ε : Type} {f : α → Except ε Unit} {l : List α} (h : l.forM f = .ok ()) :
    ∀ x ∈ l, f x = .ok () := by
  induction l with
  | nil => simp
  | cons a l ih =>
    simp only [List.forM, bind, Except.bind] at h
    split at h
    · cases h
    next ha =>
    intro x hx
    rcases mem_cons.1 hx with rfl | hx
    · exact ha
    · exact ih h x hx

theorem forM_eq_ok {α ε : Type} {f : α → Except ε Unit} {l : List α} (h : ∀ x ∈ l, f x = .ok ()) :
    l.forM f = .ok () := by
  induction l with
  | nil => rfl
  | cons a l ih =>
    simp only [List.forM, h a mem_cons_self, ok_bind]
    exact ih fun x hx => h x (mem_cons_of_mem _ hx)

theorem Validator.pubKey_of_validateBasic {crypto : Crypto} {v : Validator}
    (h : v.validateBasic crypto = .ok ()) : v.pubKey.isSome := by
  cases hpk : v.pubKey with
  | none => simp [Validator.validateBasic, hpk] at h
  | some pk => rfl

namespace ValidatorSet

def size (vals : ValidatorSet) : Nat := vals.validators.length

def getByIndex (vals : ValidatorSet) (index : Int) : Option Validator :=
  if index < 0 then none else vals.validators[index.toNat]?

/-- `GetByAddress`: the first validator with the address and its index. -/
def getByAddress (vals : ValidatorSet) (address : Bytes) : Option (Nat × Validator) :=
  match vals.validators.findIdx? (·.address = address) with
  | none => none
  | some i => vals.validators[i]?.map fun v => (i, v)

def hasAddress (vals : ValidatorSet) (address : Bytes) : Bool :=
  vals.validators.any (·.address = address)

def validateBasic (crypto : Crypto) (vals : ValidatorSet) : Except String Unit := do
  if vals.validators = [] then .error "validator set is nil or empty"
  else
    vals.validators.zipIdx.forM fun p =>
      (p.1.validateBasic crypto).mapError fun e => s!"invalid validator #{p.2}: {e}"
    match vals.proposer with
    | none => .error "proposer failed validate basic, error: nil validator"
    | some p =>
      (p.validateBasic crypto).mapError fun e => s!"proposer failed validate basic, error: {e}"
      if vals.hasAddress p.address then .ok () else .error "proposer not in validator set"

variable {vals : ValidatorSet}

theorem validateBasic_eq_ok {crypto : Crypto} (h : vals.validateBasic crypto = .ok ()) :
    vals.validators ≠ [] ∧ (∀ v ∈ vals.validators, v.validateBasic crypto = .ok ()) ∧
      ∃ p, vals.proposer = some p ∧ p.validateBasic crypto = .ok () := by
  simp only [validateBasic, bind, Except.bind] at h
  split_ifs at h with hnil
  split at h
  · cases h
  next hall =>
  refine ⟨hnil, fun v hv => ?_, ?_⟩
  · obtain ⟨i, hi⟩ := List.getElem?_of_mem hv
    have hok := forM_ok hall (v, i) (mem_zipIdx_iff_getElem?.2 hi)
    cases hv' : v.validateBasic crypto with
    | error err => simp [hv', Except.mapError] at hok
    | ok u => rfl
  · cases hp : vals.proposer with
    | none => simp [hp] at h
    | some p =>
      cases hp' : p.validateBasic crypto with
      | error err => simp [hp, hp', Except.mapError] at h
      | ok u => exact ⟨p, rfl, hp'⟩

def addPower (sum : Int) (v : Validator) : Except String Int :=
  let sum := safeAddClip sum v.votingPower
  if maxTotalVotingPower < sum then
    .error s!"total voting power {sum} exceeds maximum {maxTotalVotingPower}"
  else .ok sum

/-- `TotalVotingPowerSafe`; `TotalVotingPower` panics where this fails. -/
def totalVotingPower (vals : ValidatorSet) : Except String Int :=
  vals.validators.foldlM addPower 0

/-- `CompareProposerPriority`, on validators with their positions. -/
def compareProposerPriority (v : Option (Nat × Validator)) (other : Nat × Validator) :
    Except String (Nat × Validator) :=
  match v with
  | none => .ok other
  | some v =>
    if other.2.proposerPriority < v.2.proposerPriority then .ok v
    else if v.2.proposerPriority < other.2.proposerPriority then .ok other
    else
      match List.compareLex compare v.2.address other.2.address with
      | .lt => .ok v
      | .gt => .ok other
      | .eq => .error "Cannot compare identical validators"

def getValWithMostPriority (vals : List Validator) : Except String (Option (Nat × Validator)) :=
  (vals.zipIdx.map fun p => (p.2, p.1)).foldlM
    (fun res v => (compareProposerPriority res v).map some) none

def computeMaxMinPriorityDiff (vals : List Validator) : Int :=
  let max := vals.foldl (fun m v => max m v.proposerPriority) minInt64
  let min := vals.foldl (fun m v => min m v.proposerPriority) maxInt64
  let diff := wrap64 (max - min)
  if diff < 0 then wrap64 (-diff) else diff

def rescalePriorities (diffMax : Int) (vals : List Validator) : List Validator :=
  if diffMax ≤ 0 then vals
  else
    let diff := computeMaxMinPriorityDiff vals
    let ratio := (wrap64 (diff + diffMax - 1)).tdiv diffMax
    if diffMax < diff then
      vals.map fun v => { v with proposerPriority := v.proposerPriority.tdiv ratio }
    else vals

def shiftByAvgProposerPriority (vals : List Validator) : List Validator :=
  let avg := (vals.map (·.proposerPriority)).sum / vals.length
  vals.map fun v => { v with proposerPriority := safeSubClip v.proposerPriority avg }

/-- One round of `incrementProposerPriority`: the validators and the new proposer. -/
def incrementOnce (total : Int) (vals : List Validator) :
    Except String (List Validator × Option Validator) := do
  let vals := vals.map fun v =>
    { v with proposerPriority := safeAddClip v.proposerPriority v.votingPower }
  match ← getValWithMostPriority vals with
  | none => .ok (vals, none)
  | some (i, v) =>
    let mostest := { v with proposerPriority := safeSubClip v.proposerPriority total }
    .ok (vals.set i mostest, some mostest)

def incrementTimes (total : Int) :
    Nat → List Validator × Option Validator → Except String (List Validator × Option Validator)
  | 0, p => .ok p
  | n + 1, p => do
    let p ← incrementOnce total p.1
    incrementTimes total n p

def incrementProposerPriority (vals : ValidatorSet) (times : Int) : Except String ValidatorSet := do
  if vals.validators = [] then .error "empty validator set"
  else if times ≤ 0 then
    .error "Cannot call IncrementProposerPriority with non-positive times"
  else
    let total ← vals.totalVotingPower
    let shifted := shiftByAvgProposerPriority (rescalePriorities (2 * total) vals.validators)
    let (validators, proposer) ← incrementTimes total times.toNat (shifted, none)
    .ok { vals with validators := validators, proposer := proposer }

/-- `findProposer`, which skips validators with the address of the best one so far. -/
def findProposer (vals : List Validator) : Except String (Option Validator) :=
  (vals.foldlM
    (fun (res : Option (Nat × Validator)) v =>
      if res.any (·.2.address = v.address) then .ok res
      else (compareProposerPriority res (0, v)).map some) none).map (·.map (·.2))

def getProposer (vals : ValidatorSet) : Except String (Option Validator) :=
  if vals.validators = [] then .ok none
  else
    match vals.proposer with
    | some p => .ok (some p)
    | none => findProposer vals.validators

def power (vals : ValidatorSet) (i : Nat) : Int :=
  (vals.validators[i]?.map (·.votingPower)).getD 0

def total (vals : ValidatorSet) : Int :=
  (vals.validators.map (·.votingPower)).sum

/-- What every constructor of a validator set establishes about its powers. -/
structure Bounded (vals : ValidatorSet) : Prop where
  nonneg : ∀ v ∈ vals.validators, 0 ≤ v.votingPower
  total_le : vals.total ≤ maxTotalVotingPower

theorem foldlM_addPower (vals : List Validator) (sum : Int) (hsum : 0 ≤ sum)
    (hv : ∀ v ∈ vals, 0 ≤ v.votingPower)
    (hle : sum + (vals.map (·.votingPower)).sum ≤ maxTotalVotingPower) :
    vals.foldlM addPower sum = .ok (sum + (vals.map (·.votingPower)).sum) := by
  induction vals generalizing sum with
  | nil => simp [pure, Except.pure]
  | cons v vals ih =>
    have hv0 := hv v (by simp)
    have hrest : 0 ≤ (vals.map (·.votingPower)).sum :=
      sum_nonneg (by simpa using fun w hw => hv w (mem_cons_of_mem _ hw))
    simp only [map_cons, sum_cons] at hle ⊢
    have hclip : safeAddClip sum v.votingPower = sum + v.votingPower := by
      simp only [safeAddClip, maxTotalVotingPower, maxInt64, minInt64] at hle ⊢
      omega
    have hadd : addPower sum v = .ok (sum + v.votingPower) := by
      simp only [addPower, hclip]
      rw [if_neg (by omega)]
    rw [foldlM_cons, hadd]
    refine (ih (sum + v.votingPower) (by omega) (fun w hw => hv w (mem_cons_of_mem _ hw))
      (by omega)).trans ?_
    rw [add_assoc]

theorem Bounded.totalVotingPower_eq (h : vals.Bounded) :
    vals.totalVotingPower = .ok vals.total := by
  have := foldlM_addPower vals.validators 0 le_rfl h.nonneg (by simpa [total] using h.total_le)
  simpa [totalVotingPower, total] using this

theorem Bounded.power_nonneg (h : vals.Bounded) (i : Nat) : 0 ≤ vals.power i := by
  unfold power
  cases hi : vals.validators[i]? with
  | none => simp
  | some v => simpa using h.nonneg v (mem_of_getElem? hi)

theorem total_eq_sum (vals : ValidatorSet) :
    vals.total = ∑ i ∈ Finset.range vals.size, vals.power i := by
  unfold total size power
  induction vals.validators with
  | nil => simp
  | cons v vs ih =>
    rw [map_cons, sum_cons, length_cons, Finset.sum_range_succ', ih]
    simp [add_comm]

theorem Bounded.total_nonneg (h : vals.Bounded) : 0 ≤ vals.total := by
  rw [total_eq_sum]
  exact Finset.sum_nonneg fun i _ => h.power_nonneg i

end ValidatorSet

abbrev BoundedValidatorSet := { vals : ValidatorSet // vals.Bounded }

end CelestiaCore
