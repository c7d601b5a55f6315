import CelestiaCore.Evidence.Verify
import CelestiaCore.Types.VoteSetRuns

/-!
# The identity of evidence

What `types/evidence.go` hashes of an attack on a light client, and the order of two conflicting
votes.
-/
namespace CelestiaCore
open Wire List

/-- `binary.PutVarint`: the number in zigzag order, as a varint. -/
def putVarint (n : Int64) : Bytes :=
  uvarint (if 0 ≤ n.toInt then 2 * n.toInt else -2 * n.toInt - 1).toNat

theorem putVarint_injective : Function.Injective putVarint := by
  intro m n h
  have hread := readUvarint_uvarint (if 0 ≤ m.toInt then 2 * m.toInt else -2 * m.toInt - 1).toNat []
  rw [← putVarint, h, putVarint, readUvarint_uvarint, Option.some.injEq, Prod.mk.injEq] at hread
  refine Int64.toInt_inj.1 ?_
  have hzigzag := hread.1
  split_ifs at hzigzag <;> omega

/-- `copy` into a slice. -/
def copyInto (dst src : Bytes) : Bytes := src.take dst.length ++ dst.drop src.length

namespace LightClientAttackEvidence

/-- The bytes that `Hash` hashes. The window for the header hash is a byte short. -/
def preimage (hs : Hashes) (l : LightClientAttackEvidence) : Bytes :=
  let buf := putVarint l.commonHeight
  let bz : Bytes := .replicate (hashSize + buf.length) 0
  let bz := copyInto (bz.take (hashSize - 1)) (l.conflictingBlock.hash hs) ++ bz.drop (hashSize - 1)
  bz.take hashSize ++ copyInto (bz.drop hashSize) buf

/-- The parts of the keys `keyPending` and `keyCommitted` of the pool, which writes both in
hexadecimal. -/
def keySuffix (sum : Bytes → Bytes) (hs : Hashes) (l : LightClientAttackEvidence) : Int64 × Bytes :=
  (l.commonHeight, sum (l.preimage hs))

theorem preimage_eq {hs : Hashes} {l : LightClientAttackEvidence}
    (h : (l.conflictingBlock.hash hs).length = hashSize) :
    l.preimage hs = (l.conflictingBlock.hash hs).take 31 ++ 0 :: putVarint l.commonHeight := by
  have hwindow : min 31 (32 + (putVarint l.commonHeight).length) = 31 := by omega
  have hrest : 32 + (putVarint l.commonHeight).length - 31 =
      (putVarint l.commonHeight).length + 1 := by omega
  simp [preimage, copyInto, hashSize, h, hwindow, hrest, take_append, drop_append,
    take_take, drop_take, replicate_succ]

/-- What is hashed, and with it the keys of the pool, tells two attacks apart by the first 31 bytes
of the header hash and by the common height. -/
theorem told_apart_iff (hs : Hashes)
    (l₁ l₂ : LightClientAttackEvidence) (h₁ : (l₁.conflictingBlock.hash hs).length = hashSize)
    (h₂ : (l₂.conflictingBlock.hash hs).length = hashSize) : (l₁.preimage hs ≠ l₂.preimage hs ↔
      (l₁.conflictingBlock.hash hs).take 31 ≠ (l₂.conflictingBlock.hash hs).take 31 ∨
        l₁.commonHeight ≠ l₂.commonHeight) ∧ ∀ sum, Function.Injective sum →
      (keySuffix sum hs l₁ ≠ keySuffix sum hs l₂ ↔ l₁.preimage hs ≠ l₂.preimage hs) := by
  have hsame : l₁.preimage hs = l₂.preimage hs ↔
      (l₁.conflictingBlock.hash hs).take 31 = (l₂.conflictingBlock.hash hs).take 31 ∧
        l₁.commonHeight = l₂.commonHeight := by
    rw [preimage_eq h₁, preimage_eq h₂]
    constructor
    · intro h
      obtain ⟨hhash, hrest⟩ := append_inj h (by simp [h₁, h₂])
      exact ⟨hhash, putVarint_injective (cons.inj hrest).2⟩
    · rintro ⟨hhash, hheight⟩
      rw [hhash, hheight]
  refine ⟨by rw [← not_and_or, ne_eq, hsame], fun sum hsum => not_congr ?_⟩
  rw [keySuffix, keySuffix, Prod.mk.injEq, hsum.eq_iff]
  exact ⟨And.right, fun h => ⟨(hsame.1 h).2, h⟩⟩

/-- Attacks with a block of height 3, under header hashes that have the time of the header in the
first and the last byte. -/
def timedHashes : Hashes := { Light.exampleHashes with
  header := fun h => UInt8.ofNat (h.time.toNat / 256) :: .replicate 30 1 ++
    [UInt8.ofNat h.time.toNat] }

def timedAttack (commonHeight : Int64) (time : Time) : LightClientAttackEvidence :=
  ⟨{ Light.exampleBlock 3 1 with header := { Light.exampleHeader 3 with time := time } },
    commonHeight, none, 1, 0⟩

theorem told_apart_by_header_or_height :
    (∀ sum, Function.Injective sum → keySuffix sum timedHashes (timedAttack 1 5) ≠
      keySuffix sum timedHashes (timedAttack 1 300)) ∧
    (timedAttack 1 5).preimage timedHashes ≠ (timedAttack 2 5).preimage timedHashes := by
  obtain ⟨hheader, hkeys⟩ := told_apart_iff timedHashes (timedAttack 1 5)
    (timedAttack 1 300) rfl rfl
  have hheight := (told_apart_iff timedHashes (timedAttack 1 5) (timedAttack 2 5) rfl rfl).1
  exact ⟨fun sum hsum => (hkeys sum hsum).2 (hheader.2 (.inl (by decide))),
    hheight.2 (.inr (by decide))⟩

/-- Two conflicting headers whose hashes differ in the last byte are hashed from the same bytes. -/
theorem last_byte_not_told_apart :
    ((timedAttack 1 5).conflictingBlock.hash timedHashes).length = hashSize ∧
      ((timedAttack 1 6).conflictingBlock.hash timedHashes).length = hashSize ∧
      (timedAttack 1 5).conflictingBlock.hash timedHashes ≠
        (timedAttack 1 6).conflictingBlock.hash timedHashes ∧
      (timedAttack 1 5).preimage timedHashes = (timedAttack 1 6).preimage timedHashes := by
  decide +kernel

end LightClientAttackEvidence

namespace EvidencePool

/-- A nil argument is `none`. -/
def newDuplicateVoteEvidence (vote1 vote2 : Option Vote) (blockTime : Time)
    (valSet : Option ValidatorSet) : Except VerifyFailure DuplicateVoteEvidence :=
  match vote1, vote2, valSet with
  | some vote1, some vote2, some valSet =>
    match valSet.getByAddress vote1.validatorAddress with
    | none => .error (.err "validator not in validator set")
    | some (_, val) => do
      let votes :=
        if compare vote1.blockID.key vote2.blockID.key = .lt then (vote1, vote2) else (vote2, vote1)
      let total ← totalOrPanic valSet
      .ok ⟨votes.1, votes.2, total, val.votingPower, blockTime⟩
  | some _, some _, none => .error (.err "missing validator set")
  | _, _, _ => .error (.err "missing vote")

/-- Two votes of a validator in one round for different blocks. -/
structure Conflict (valSet : ValidatorSet) (val : Validator) (a b : Vote) : Prop where
  address : a.validatorAddress = b.validatorAddress
  voter : ∃ i, valSet.getByAddress a.validatorAddress = some (i, val)
  height : a.height = b.height
  round : a.round = b.round
  type : a.type = b.type
  blockID : a.blockID ≠ b.blockID
  zeroOrComplete : ∀ vote ∈ [a, b], vote.blockID.isZero = true ∨ vote.blockID.isComplete = true

structure Canonical (crypto : BatchCrypto) (valSet : ValidatorSet) (val : Validator) (a b : Vote)
    (blockTime : Time) (ev : DuplicateVoteEvidence) : Prop where
  made : newDuplicateVoteEvidence (some a) (some b) blockTime (some valSet) = .ok ev
  swapped : newDuplicateVoteEvidence (some b) (some a) blockTime (some valSet) = .ok ev
  basic : ev.validateBasic = .ok () ↔ a.validateBasic = .ok () ∧ b.validateBasic = .ok ()
  verified : ∀ chainID pk, val.pubKey = some pk →
    (∀ vote ∈ [a, b], vote.verify crypto.toCrypto chainID pk = .ok none) →
    verifyDuplicateVote crypto ev chainID valSet = .ok ()

variable {valSet : ValidatorSet} {val : Validator} {a b : Vote}

theorem Conflict.symm (h : Conflict valSet val a b) : Conflict valSet val b a :=
  ⟨h.address.symm, h.address ▸ h.voter, h.height.symm, h.round.symm, h.type.symm, h.blockID.symm,
    fun vote hvote => h.zeroOrComplete vote (by simpa [or_comm] using hvote)⟩

theorem Conflict.key_ne (h : Conflict valSet val a b) : a.blockID.key ≠ b.blockID.key := by
  have hformed : ∀ vote ∈ [a, b], vote.blockID.WellFormed := fun vote hvote =>
    (h.zeroOrComplete vote hvote).elim (fun hzero => .inl ((BlockID.isZero_iff _).1 hzero))
      BlockID.wellFormed_of_isComplete
  exact fun hkey => h.blockID ((hformed a (by simp)).eq_of_key_eq (hformed b (by simp)) hkey)

theorem Conflict.evidence_of_lt (crypto : BatchCrypto) (h : Conflict valSet val a b)
    (hvals : valSet.Bounded) (hlt : compare a.blockID.key b.blockID.key = .lt) (blockTime : Time) :
    ∃ ev, Canonical crypto valSet val a b blockTime ev := by
  obtain ⟨i, hval⟩ := h.voter
  have hgt : compare b.blockID.key a.blockID.key = .gt := Std.OrientedCmp.gt_iff_lt.2 hlt
  have hval' := hval
  rw [h.address] at hval'
  refine ⟨⟨a, b, valSet.total, val.votingPower, blockTime⟩, ?_, ?_, ?_,
    fun chainID pk hpk hsigned => ?_⟩
  · simp [newDuplicateVoteEvidence, hval, hlt, totalOrPanic, hvals.totalVotingPower_eq]
  · simp [newDuplicateVoteEvidence, hval', hgt, totalOrPanic, hvals.totalVotingPower_eq]
  · simp [DuplicateVoteEvidence.validateBasic, mapError_eq_ok, hlt]
  · obtain ⟨haddr, bytesA, hbytesA, hsigA⟩ := VoteSet.verify_eq_ok.1 (hsigned a (by simp))
    obtain ⟨-, bytesB, hbytesB, hsigB⟩ := VoteSet.verify_eq_ok.1 (hsigned b (by simp))
    simp [verifyDuplicateVote, hval, hpk, h.height, h.round, h.type, ← h.address, h.blockID, haddr,
      totalOrPanic, hvals.totalVotingPower_eq, hbytesA, hbytesB, hsigA, hsigB, bind, Except.bind]

/-- The evidence of a conflict does not depend on the order of the votes, passes `ValidateBasic` if
and only if they do, and is verified if their signatures are valid. -/
theorem duplicate_vote_canonical (crypto : BatchCrypto) (valSet : ValidatorSet)
    (hvals : valSet.Bounded) (val : Validator) (a b : Vote) (blockTime : Time)
    (h : Conflict valSet val a b) : ∃ ev, Canonical crypto valSet val a b blockTime ev := by
  cases hcmp : compare a.blockID.key b.blockID.key with
  | lt => exact h.evidence_of_lt crypto hvals hcmp blockTime
  | eq => exact absurd (Std.LawfulEqOrd.compare_eq_iff_eq.1 hcmp) h.key_ne
  | gt =>
    obtain ⟨ev, hev⟩ :=
      h.symm.evidence_of_lt crypto hvals (Std.OrientedCmp.gt_iff_lt.1 hcmp) blockTime
    refine ⟨ev, hev.swapped, hev.made, hev.basic.trans and_comm, fun chainID pk hpk hsigned => ?_⟩
    exact hev.verified chainID pk hpk fun vote hvote =>
      hsigned vote (by simpa [or_comm] using hvote)

def sampleVote (hash : UInt8) : Vote :=
  ⟨.prevote, 1, 0, ⟨.replicate 32 hash, ⟨1, .replicate 32 hash⟩⟩, 5, .replicate 20 1, 0,
    [1], [], []⟩

theorem duplicate_vote_canonical_two : ∃ ev, Canonical Light.exampleCrypto Light.exampleValidators
        ⟨.replicate 20 1, some ⟨.ed25519, .replicate 32 1⟩, 1, 0⟩ (sampleVote 2)
          (sampleVote 1) 5 ev ∧
      ev.validateBasic = .ok () := by
  obtain ⟨ev, hev⟩ := duplicate_vote_canonical Light.exampleCrypto Light.exampleValidators
    ⟨by decide, by decide⟩ _ (sampleVote 2) (sampleVote 1) 5
    ⟨rfl, ⟨0, rfl⟩, rfl, rfl, rfl, by decide, by decide⟩
  exact ⟨ev, hev, hev.basic.2 (by decide)⟩

/-- The evidence of votes without signatures is made, but `ValidateBasic` rejects it. -/
theorem unsigned_conflict_not_basic :
    Conflict Light.exampleValidators ⟨.replicate 20 1, some ⟨.ed25519, .replicate 32 1⟩, 1, 0⟩
        { sampleVote 2 with signature := [] } { sampleVote 1 with signature := [] } ∧
      ∃ ev, newDuplicateVoteEvidence (some { sampleVote 2 with signature := [] })
          (some { sampleVote 1 with signature := [] }) 5 (some Light.exampleValidators) = .ok ev ∧
        ev.validateBasic ≠ .ok () :=
  ⟨⟨rfl, ⟨0, rfl⟩, rfl, rfl, rfl, by decide, by decide⟩, _, rfl, by decide⟩

end EvidencePool
end CelestiaCore
