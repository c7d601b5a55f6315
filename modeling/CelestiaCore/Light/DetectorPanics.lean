import CelestiaCore.Light.CrossCheck
import CelestiaCore.Types.VerifyPanics

/-!
# When the detector panics

Traces are not empty, because verified headers rise in time. A signature that was not needed to
reach the threshold may carry any address. If both commits of the same round vote at its index, a
nil validator is sorted. -/
namespace CelestiaCore.Light
open Wire List Except
variable {traceBlock first : LightBlock}

/-- What a light block has that was decoded and passed `ValidateBasic`. -/
structure Decoded (cfg : Config) (b : LightBlock) : Prop where
  basic : ∃ chainID, b.validateBasic cfg.crypto.toCrypto cfg.hashes chainID = .ok ()
  bounded : b.validatorSet.Bounded
  timestamps : ∀ sig ∈ b.commit.signatures, sig.timestamp.isValid = true

/-- The votes of the first commit for its block at the indices at which the second votes for its
own. -/
def commonVotes (sigs trustedSigs : List CommitSig) : List CommitSig :=
  ((sigs.zip trustedSigs).filter fun p =>
    p.1.blockIDFlag = .commit ∧ p.2.blockIDFlag = .commit).map (·.1)

section Basic
variable {cfg : Config} {b : LightBlock} {crypto : Crypto} {chainID : Bytes}

theorem LightBlock.validateBasic_ok {hs : Hashes} (h : b.validateBasic crypto hs chainID = .ok ()) :
    b.validatorSet.validators ≠ [] ∧ b.validatorSet.proposer.isSome = true ∧
      b.header.validatorsHash = hs.validators b.validatorSet := by
  unfold LightBlock.validateBasic at h
  simp only [check_bind_eq_ok, mapError_eq_ok, reject_eq_ok, ne_eq, not_not] at h
  obtain ⟨-, hvals, hhash⟩ := h
  unfold ValidatorSet.validateBasic at hvals
  split_ifs at hvals with hnil
  · refine ⟨hnil, ?_, hhash⟩
    simp only [check_bind_eq_ok] at hvals
    obtain ⟨-, hp⟩ := hvals
    cases hprop : b.validatorSet.proposer with
    | none => simp [hprop] at hp
    | some p => rfl

theorem height_pos_of_validateBasic {hs : Hashes}
    (h : b.validateBasic crypto hs chainID = .ok ()) : 0 < b.height := by
  unfold LightBlock.validateBasic SignedHeader.validateBasic Header.validateBasic at h
  simp only [check_bind_eq_ok, mapError_eq_ok, reject_eq_ok, ne_eq, not_not] at h
  obtain ⟨⟨⟨-, -, hneg, hzero, -⟩, -⟩, -⟩ := h
  exact Int64.lt_of_le_of_ne (Int64.not_lt.1 hneg) (Ne.symm hzero)

theorem commit_of_validateBasic {hs : Hashes} (h : b.validateBasic crypto hs chainID = .ok ()) :
    b.commit.height = b.height ∧ b.commit.blockID.validateBasic = .ok () ∧
      ∀ sig ∈ b.commit.signatures, sig.validateBasic = .ok () := by
  have hpos := height_pos_of_validateBasic h
  unfold LightBlock.validateBasic SignedHeader.validateBasic at h
  simp only [check_bind_eq_ok, mapError_eq_ok, reject_eq_ok, ne_eq, not_not] at h
  obtain ⟨⟨-, hcommit, -, hheight, -⟩, -⟩ := h
  have hone : 1 ≤ b.commit.height := by
    rw [hheight, Int64.le_iff_toInt_le]
    exact Int64.lt_iff_toInt_lt.1 hpos
  unfold Commit.validateBasic at hcommit
  rw [if_pos hone] at hcommit
  simp only [check_bind_eq_ok, mapError_eq_ok] at hcommit
  obtain ⟨-, -, -, hid, -, hsigs⟩ := hcommit
  refine ⟨hheight, hid, fun sig hsig => ?_⟩
  obtain ⟨i, hi⟩ := List.mem_iff_getElem?.1 hsig
  exact mapError_eq_ok.1 (forM_ok hsigs (sig, i) (List.mk_mem_zipIdx_iff_getElem?.2 hi))

theorem Decoded.signable (h : Decoded cfg b) : b.commit.Signable := by
  obtain ⟨chainID, hb⟩ := h.basic
  exact Commit.signable_of_valid (commit_of_validateBasic hb).2.1 h.timestamps

theorem Decoded.valid (h : Decoded cfg b) :
    b.validatorSet.validators ≠ [] ∧ b.validatorSet.proposer.isSome = true ∧
      b.header.validatorsHash = cfg.hashes.validators b.validatorSet := by
  obtain ⟨chainID, hb⟩ := h.basic
  exact LightBlock.validateBasic_ok hb

end Basic

section Verify
variable {cfg : Config} {trusted untrusted : LightBlock} {now : Time}

theorem verifyCommitOfBlock_returns (hu : Decoded cfg untrusted) (msg : String) :
    verifyCommitOfBlock cfg trusted untrusted ≠ .error (.panic msg) := by
  have hcommit : Returns (verifyCommitLight cfg.crypto trusted.header.chainID
      untrusted.validatorSet untrusted.commit.blockID untrusted.height untrusted.commit) :=
    verifyCommitLightInternal_returns hu.bounded hu.valid.2.1 hu.valid.1 hu.signable
  unfold verifyCommitOfBlock
  split
  case h_2 m hm => exact absurd hm (hcommit m)
  all_goals simp

theorem verify_returns (ht : Decoded cfg trusted) (hu : Decoded cfg untrusted) (msg : String) :
    verify cfg trusted untrusted now ≠ .error (.panic msg) := by
  have htrust : Returns (verifyCommitLightTrusting cfg.crypto trusted.header.chainID
      trusted.validatorSet untrusted.commit cfg.trustLevel) :=
    verifyCommitLightTrustingInternal_returns ht.bounded ht.valid.2.1 ht.valid.1 hu.signable
  unfold verify
  split
  · unfold verifyNonAdjacent
    split
    · simp
    split
    · simp
    split
    · simp
    split
    case h_3 m hm => exact absurd hm (htrust m)
    case h_4 => exact verifyCommitOfBlock_returns hu msg
    all_goals simp
  · unfold verifyAdjacent
    split
    · simp
    split
    · simp
    split
    · simp
    split
    · simp
    · exact verifyCommitOfBlock_returns hu msg

end Verify

variable {trace : List LightBlock}

section Skipping
variable {cfg : Config} {source : Source} {now : Time} {target start : LightBlock}

/-- A loop state made of blocks with a property, whose depth is within the cache. -/
structure SkipBlocks (P : LightBlock → Prop) (s : SkipState) : Prop where
  cache : ∀ b ∈ s.blockCache, P b
  verified : P s.verifiedBlock
  trace : ∀ b ∈ s.trace, P b
  depth : s.depth < s.blockCache.length

variable {P : LightBlock → Prop} (htarget : P target)
  (hsource : ∀ n height b, source n height = .ok b → P b)
include hsource

theorem SkipBlocks.next {s s' : SkipState} (hs : SkipBlocks P s)
    (h : skipStep cfg source now target s = .inl s') : SkipBlocks P s' := by
  have hcase := skipStep_case cfg source now target s
  rw [h] at hcase
  have hdepth := hs.depth
  cases hcase with
  | advance block hblock =>
    have hb := hs.cache block (mem_of_getElem? hblock)
    refine ⟨fun b hb' => hs.cache b (mem_of_mem_take hb'), hb, fun b hb' => ?_, ?_⟩
    · rcases mem_append.1 hb' with hb' | hb'
      · exact hs.trace b hb'
      · obtain rfl := mem_singleton.1 hb'
        exact hb
    · show 0 < (s.blockCache.take s.depth).length
      rw [length_take]
      omega
  | deeper =>
    refine ⟨hs.cache, hs.verified, hs.trace, ?_⟩
    show s.depth + 1 < s.blockCache.length
    omega
  | fetched block hblock got needed hv hlen interim hanswer =>
    have hinterim := hsource _ _ _ hanswer
    refine ⟨fun b hb => ?_, hs.verified, hs.trace, ?_⟩
    · rcases mem_append.1 hb with hb | hb
      · exact hs.cache b hb
      · obtain rfl : b = interim := by simpa using hb
        exact hinterim
    · show s.depth + 1 < (s.blockCache ++ [interim, interim]).length
      rw [length_append]
      simp only [length_cons, length_nil]
      omega

include htarget

/-- The blocks of a trace are the trusted block, the target and answers of the source. -/
theorem verifySkipping_mem (hstart : P start) {asked fuel n : Nat}
    (h : verifySkipping cfg source now target start asked fuel = some (.ok trace, n)) :
    ∀ b ∈ trace, P b := by
  refine Loop.run_post (SkipBlocks P) (fun r => ∀ trace, r.1 = .ok trace → ∀ b ∈ trace, P b)
    (fun s s' hs hstep => hs.next hsource hstep) ?_ ?_ h trace rfl
  · intro s r hs hstep trace htrace b hb
    have hcase := skipStep_case cfg source now target s
    rw [hstep] at hcase
    cases hcase with
    | finished =>
      cases htrace
      rcases mem_append.1 hb with hb | hb
      · exact hs.trace b hb
      · obtain rfl := mem_singleton.1 hb
        exact htarget
    | outOfRange => cases htrace
    | unanswered => cases htrace
    | rejected => cases htrace
  · exact ⟨by simpa [skipStart] using htarget, hstart, by simpa [skipStart] using hstart,
      Nat.one_pos⟩

end Skipping

theorem verifySkipping_returns {cfg : Config} {source : Source} {now : Time}
    {target start : LightBlock} (htarget : Decoded cfg target)
    (hsource : ∀ n height b, source n height = .ok b → Decoded cfg b) (hstart : Decoded cfg start)
    {asked fuel n : Nat} {msg : String} :
    verifySkipping cfg source now target start asked fuel ≠ some (.error (.panic msg), n) := by
  intro h
  refine Loop.run_post (SkipBlocks (Decoded cfg)) (fun r => r.1 ≠ .error (.panic msg))
    (fun s s' hs hstep => hs.next hsource hstep) ?_ ?_ h rfl
  · intro s r hs hstep hpanic
    unfold skipStep at hstep
    rw [getElem?_eq_getElem hs.depth] at hstep
    have hblock := hs.cache _ (getElem_mem hs.depth)
    dsimp only at hstep
    split at hstep
    case h_1 =>
      split_ifs at hstep
      cases hstep
      cases hpanic
    case h_2 =>
      split_ifs at hstep
      split at hstep
      · cases hstep
      · split_ifs at hstep
        all_goals
          cases hstep
          cases hpanic
    case h_3 m hm => exact verify_returns hs.verified hblock m hm
    case h_4 =>
      cases hstep
      cases hpanic
  · exact ⟨by simpa [skipStart] using htarget, hstart, by simpa [skipStart] using hstart,
      Nat.one_pos⟩

/-- A set of decoded blocks among which no hash collides. -/
structure CollisionFree (cfg : Config) (blocks : Set LightBlock) : Prop where
  decoded : ∀ b ∈ blocks, Decoded cfg b
  header : ∀ a ∈ blocks, ∀ b ∈ blocks, a.hash cfg.hashes = b.hash cfg.hashes → a.header = b.header
  validators : ∀ a ∈ blocks, ∀ b ∈ blocks, cfg.hashes.validators a.validatorSet =
    cfg.hashes.validators b.validatorSet → a.validatorSet.size = b.validatorSet.size

def AnswersIn (source : Source) (blocks : Set LightBlock) : Prop :=
  ∀ n height b, source n height = .ok b → b ∈ blocks

/-- How the last block of the source diverges from a block of the trace: another header at its
height, or a lower height and no earlier time. -/
def Diverges (cfg : Config) (source : Source) (target last divergent : LightBlock) : Prop :=
  (last.hash cfg.hashes ≠ divergent.hash cfg.hashes ∧
      (last = target ∧ last.height = divergent.height ∨
        ∃ n, source n divergent.height = .ok last)) ∨
    last.height < divergent.height ∧ divergent.time ≤ last.time

/-- What the examination of a trace returns: verified blocks, and a block of the trace. -/
structure Examined (cfg : Config) (source : Source) (now : Time) (target : LightBlock)
    (blocks : Set LightBlock) (trace : List LightBlock) (sourceTrace : List LightBlock)
    (divergent : LightBlock) : Prop where
  chain : VerifiedChain cfg now sourceTrace
  two_le : 2 ≤ sourceTrace.length
  mem : ∀ b ∈ sourceTrace, b ∈ blocks
  divergent_mem : divergent ∈ trace
  common : ∃ common, sourceTrace.head? = some common ∧ common.height < divergent.height
  diverges : ∃ last, sourceTrace.getLast? = some last ∧ Diverges cfg source target last divergent

section Examination
variable {cfg : Config} {source : Source} {now : Time} {fuel : Nat} {blocks : Set LightBlock}
  {target : LightBlock} (hblocks : CollisionFree cfg blocks) (hsource : AnswersIn source blocks)
  (htarget : target ∈ blocks)
include hblocks hsource

variable {asked n : Nat}

theorem verifySource_returns {prev b : LightBlock} (hprev : prev ∈ blocks) (hb : b ∈ blocks)
    {msg : String} :
    verifySource cfg source now fuel prev b asked ≠ some (.error (.panic msg), n) := by
  have hskip : ∀ m k, verifySkipping cfg source now b prev asked fuel ≠
      some (.error (.panic m), k) := fun m k =>
    verifySkipping_returns (hblocks.decoded b hb)
      (fun n height b hb => hblocks.decoded b (hsource n height b hb)) (hblocks.decoded prev hprev)
  unfold verifySource
  split
  case h_1 m k hrun => exact absurd hrun (hskip m k)
  case h_2 => simp
  case h_3 => exact hskip msg n

omit hblocks in
theorem verifySource_ok {prev b : LightBlock} (hprev : prev ∈ blocks) (hb : b ∈ blocks)
        (h : verifySource cfg source now fuel prev b asked = some (.ok trace, n)) :
    GoodTrace cfg now prev b trace ∧ ∀ b ∈ trace, b ∈ blocks := by
  unfold verifySource at h
  split at h
  · simp at h
  · simp at h
  · have hgood := verifySkipping_trace source h
    exact ⟨hgood, verifySkipping_mem (P := (· ∈ blocks)) hb hsource hprev h⟩

include htarget

omit hblocks hsource htarget in
theorem sourceBlockAt_origin {b : LightBlock}
    (h : sourceBlockAt source target traceBlock asked = (.ok b, n)) :
    b = target ∧ b.height = traceBlock.height ∨ ∃ n, source n traceBlock.height = .ok b := by
  unfold sourceBlockAt at h
  split_ifs at h with heq
  · obtain rfl : target = b := ok.inj (congrArg Prod.fst h)
    exact .inl ⟨rfl, heq.symm⟩
  · exact .inr ⟨asked, congrArg Prod.fst h⟩

omit hblocks in
theorem sourceBlockAt_mem {b : LightBlock}
    (h : sourceBlockAt source target traceBlock asked = (.ok b, n)) : b ∈ blocks := by
  obtain ⟨rfl, -⟩ | ⟨k, hk⟩ := sourceBlockAt_origin h
  · exact htarget
  · exact hsource _ _ _ hk

omit hblocks hsource htarget in
theorem sourceBlockAt_target {b : LightBlock}
    (h : sourceBlockAt source target traceBlock asked = (.ok b, n))
    (hheader : b.header = traceBlock.header) (hheight : b.height = target.height) : b = target := by
  unfold sourceBlockAt at h
  split_ifs at h with heq
  · exact (ok.inj (congrArg Prod.fst h)).symm
  · refine absurd ?_ heq
    rw [← hheight]
    exact (congrArg Header.height hheader).symm

/-- The loop of an examination, after a block of the trace whose header the source has. -/
theorem examineFrom_spec {prev : LightBlock} {sourceTrace : List LightBlock} {asked : Nat}
    (hchain : VerifiedChain cfg now (first :: trace)) (htrace : ∀ b ∈ trace, b ∈ blocks)
    (hheader : prev.header = first.header) (hprev : prev ∈ blocks)
    (hsame : prev.height = target.height → prev = target) :
    (∀ msg n, examineFrom cfg source now fuel target trace prev sourceTrace asked ≠
        some (.error (.panic msg), n)) ∧
      ∀ tr divergent n, examineFrom cfg source now fuel target trace prev sourceTrace asked =
        some (.ok (tr, divergent), n) →
          Examined cfg source now target blocks trace tr divergent := by
  induction trace generalizing first prev sourceTrace asked with
  | nil => simp [examineFrom]
  | cons traceBlock trace ih =>
    obtain ⟨hverify, hrest⟩ := isChain_cons_cons.1 hchain
    have hmem := htrace traceBlock mem_cons_self
    have hbelow : prev.height < traceBlock.height := by
      rw [show prev.height = first.height from congrArg Header.height hheader]
      exact (verify_eq_ok hverify).newHeader.height_lt
    have hreturns : ∀ b ∈ blocks, ∀ asked n msg,
        verifySource cfg source now fuel prev b asked ≠ some (.error (.panic msg), n) :=
      fun b hb asked n msg => verifySource_returns hblocks hsource hprev hb
    rw [examineFrom]
    split_ifs with hlt htime hheight
    · simp
    · -- the gap to the target is verified
      split
      · simp
      case h_2 e n hrun =>
        constructor
        · intro msg m h
          cases h
          exact hreturns target htarget asked n msg hrun
        · simp
      case h_3 tr n hrun =>
        refine ⟨by simp, fun tr' divergent m h => ?_⟩
        cases h
        obtain ⟨hgood, hm⟩ := verifySource_ok hsource hprev htarget hrun
        exact ⟨hgood.chain, hgood.two_le, hm, mem_cons_self, ⟨prev, hgood.head, hbelow⟩,
          target, hgood.last, .inr ⟨hlt, not_lt.1 htime⟩⟩
    · -- verified headers rise in time, so the target cannot be the block before
      exfalso
      have hprevTarget := hsame (not_not.1 hheight)
      have hrise := (verify_eq_ok hverify).newHeader.time_lt
      have htimes : target.time = first.time := by
        rw [← hprevTarget]
        exact congrArg Header.time hheader
      exact htime (htimes ▸ hrise)
    · rcases hat : sourceBlockAt source target traceBlock asked with ⟨res, n⟩
      cases res with
      | error e => simp
      | ok b =>
        have hb : b ∈ blocks := sourceBlockAt_mem hsource htarget hat
        dsimp only
        split
        · simp
        case h_2 e m hrun =>
          constructor
          · intro msg k h
            cases h
            exact hreturns b hb n m msg hrun
          · simp
        case h_3 tr m hrun =>
          split_ifs with hhash
          · refine ⟨by simp, fun tr' divergent k h => ?_⟩
            cases h
            obtain ⟨hgood, hm⟩ := verifySource_ok hsource hprev hb hrun
            exact ⟨hgood.chain, hgood.two_le, hm, mem_cons_self, ⟨prev, hgood.head, hbelow⟩,
              b, hgood.last, .inl ⟨hhash, sourceBlockAt_origin hat⟩⟩
          · have heq : b.header = traceBlock.header :=
              hblocks.header b hb traceBlock hmem (not_not.1 hhash)
            obtain ⟨hno, hok⟩ := ih hrest (fun b hb => htrace b (mem_cons_of_mem _ hb)) heq hb
              (sourceBlockAt_target hat heq)
            refine ⟨hno, fun tr' divergent k h => ?_⟩
            have hexamined := hok tr' divergent k h
            exact { hexamined with divergent_mem := mem_cons_of_mem _ hexamined.divergent_mem }

variable (fuel) in
/-- The examination of a verified trace does not panic, and a trace that it returns is not empty. -/
theorem examine_spec (asked : Nat) (hne : trace ≠ [])
    (hchain : VerifiedChain cfg now trace) (htrace : ∀ b ∈ trace, b ∈ blocks) :
    (∀ msg n, examineConflictingHeaderAgainstTrace cfg source now fuel target trace asked ≠
        some (.error (.panic msg), n)) ∧
      ∀ tr divergent n,
        examineConflictingHeaderAgainstTrace cfg source now fuel target trace asked =
          some (.ok (tr, divergent), n) →
            Examined cfg source now target blocks trace.tail tr divergent := by
  obtain ⟨first, rest, rfl⟩ := exists_cons_of_ne_nil hne
  rw [examineConflictingHeaderAgainstTrace]
  split_ifs with hlow
  · simp
  rcases hat : sourceBlockAt source target first asked with ⟨res, n⟩
  cases res with
  | error e => simp
  | ok b =>
    have hb : b ∈ blocks := sourceBlockAt_mem hsource htarget hat
    dsimp only
    split_ifs with hhash
    · simp
    · have heq : b.header = first.header :=
        hblocks.header b hb first (htrace first mem_cons_self) (not_not.1 hhash)
      exact examineFrom_spec hblocks hsource htarget hchain
        (fun b hb => htrace b (mem_cons_of_mem _ hb)) heq hb (sourceBlockAt_target hat heq)

end Examination

section Evidence
variable {cfg : Config} {now : Time} {blocks : Set LightBlock}
    {conflicted trusted common : LightBlock}

theorem commonVotes_cons_drop (sig : CommitSig) (sigs : List CommitSig)
    {trustedSigs : List CommitSig}
    {i : Nat} {sigB : CommitSig} (h : trustedSigs[i]? = some sigB) :
    commonVotes (sig :: sigs) (trustedSigs.drop i) =
      if sig.blockIDFlag = .commit ∧ sigB.blockIDFlag = .commit then
        sig :: commonVotes sigs (trustedSigs.drop (i + 1))
      else commonVotes sigs (trustedSigs.drop (i + 1)) := by
  obtain ⟨hi, rfl⟩ := List.getElem?_eq_some_iff.1 h
  rw [drop_eq_getElem_cons hi]
  unfold commonVotes
  rw [zip_cons_cons, filter_cons]
  split_ifs <;> simp_all

/-- The loop over two commits looks up the signers of the common votes. -/
theorem doubleSigners_ok {sh : SignedHeader} {sigs : List CommitSig} {i : Nat}
    {validators : List (Option Validator)} (h : doubleSigners conflicted sh sigs i =
      .ok validators) :
    validators = (commonVotes sigs (sh.commit.signatures.drop i)).map fun sig =>
      (conflicted.validatorSet.getByAddress sig.validatorAddress).map (·.2) := by
  induction sigs generalizing i validators with
  | nil => exact (ok.inj h).symm
  | cons sig sigs ih =>
    rw [doubleSigners] at h
    cases hi : sh.commit.signatures[i]? with
    | none =>
      have hdrop : sh.commit.signatures.drop i = [] := drop_eq_nil_of_le (getElem?_eq_none_iff.1 hi)
      have hdrop' : sh.commit.signatures.drop (i + 1) = [] := by
        rw [← drop_drop, hdrop, drop_nil]
      split_ifs at h
      · rw [ih h, hdrop, hdrop']
        simp [commonVotes]
      · simp [hi] at h
    | some sigB =>
      rw [commonVotes_cons_drop sig sigs hi]
      simp only [hi] at h
      split_ifs at h with hflag hflagB
      · rw [ih h, if_neg fun hboth => hflag hboth.1]
      · rw [ih h, if_neg fun hboth => hflagB hboth.2]
      · obtain ⟨rest, hrest, hcons⟩ := except_bind_eq_ok.1 h
        rw [if_pos ⟨not_not.1 hflag, not_not.1 hflagB⟩, map_cons, ← ih hrest]
        exact (ok.inj hcons).symm

end Evidence

section Examples

def batchingCrypto : BatchCrypto where
  address pk := pk.bytes.take 20
  verifySignature _ _ sig := sig == [1]
  batchAdd _ _ _ := .ok ()
  batchVerify batch := (batch.all fun e => e.2.2 == [1], batch.map fun e => e.2.2 == [1])
  batch_sound := by simp

/-- The header hash shows the height and the first byte of the data hash. -/
def forkHashes : Hashes where
  header h := h.height.toUInt64.toUInt8 :: h.dataHash.headD 0 :: .replicate 30 0
  validators _ := exampleHash 1
  proposerPriority _ := exampleHash 2

def forkConfig : Config := ⟨batchingCrypto, forkHashes, 1000, 10, ⟨1, 3⟩⟩

def forkValidator (b : UInt8) (power : Int) : Validator :=
  ⟨.replicate 20 b, some ⟨.ed25519, .replicate 32 b⟩, power, 0⟩

def forkValidators : ValidatorSet :=
  ⟨[forkValidator 1 10, forkValidator 2 10, forkValidator 3 1], some (forkValidator 1 10), true⟩

/-- A block of three validators; the third signature has a given address. -/
def forkBlock (height : Int64) (data third : UInt8) : LightBlock where
  header := { exampleHeader height with dataHash := .replicate 32 data }
  commit := ⟨height, 0, ⟨height.toUInt64.toUInt8 :: data :: .replicate 30 0, ⟨1, exampleHash 3⟩⟩,
    [⟨.commit, .replicate 20 1, height.toInt, [1]⟩, ⟨.commit, .replicate 20 2, height.toInt, [1]⟩,
      ⟨.commit, .replicate 20 third, height.toInt, [1]⟩]⟩
  validatorSet := forkValidators

/-- A provider with the common block at height 1 and a block at height 6. -/
def forkedSource (b : LightBlock) : Source := fun _ h =>
  if h = 1 then .ok (forkBlock 1 0 3) else if h = 6 then .ok b else .error .lightBlockNotFound

def forkSource (data third : UInt8) : Source := forkedSource (forkBlock 6 data third)

theorem decoded_fork (height : Int64) (data : UInt8) (h : height = 1 ∧ data = 0 ∨ height = 6 ∧
    data = 1 ∨
    height = 6 ∧ data = 2) : Decoded forkConfig (forkBlock height data 3) := by
  rcases h with ⟨rfl, rfl⟩ | ⟨rfl, rfl⟩ | ⟨rfl, rfl⟩
  all_goals exact ⟨⟨[99], by decide +kernel⟩, ⟨by decide, by decide⟩, by decide⟩

theorem collisionFree_forked {b : LightBlock} (hb : Decoded forkConfig b)
    (hsize : b.validatorSet.size = 3)
      (hcommon : b.hash forkHashes ≠ (forkBlock 1 0 3).hash forkHashes)
    (hprimary : b.hash forkHashes ≠ (forkBlock 6 1 3).hash forkHashes) :
    CollisionFree forkConfig {forkBlock 1 0 3, forkBlock 6 1 3, b} := by
  have hforked : (forkBlock 1 0 3).hash forkHashes ≠ (forkBlock 6 1 3).hash forkHashes := by
    decide +kernel
  constructor
  case decoded =>
    rintro c (rfl | rfl | rfl)
    · exact decoded_fork 1 0 (.inl ⟨rfl, rfl⟩)
    · exact decoded_fork 6 1 (.inr (.inl ⟨rfl, rfl⟩))
    · exact hb
  case header =>
    rintro a (rfl | rfl | rfl) c (rfl | rfl | rfl) h
    all_goals first | rfl | exact absurd h ‹_› | exact absurd h.symm ‹_›
  case validators =>
    rintro a (rfl | rfl | rfl) c (rfl | rfl | rfl) -
    all_goals first | rfl | exact hsize | exact hsize.symm

theorem answersIn_forked {b : LightBlock} {blocks : Set LightBlock}
    (hcommon : forkBlock 1 0 3 ∈ blocks) (hb : b ∈ blocks) : AnswersIn (forkedSource b) blocks := by
  intro n height c hc
  unfold forkedSource at hc
  split_ifs at hc
  · cases hc
    exact hcommon
  · cases hc
    exact hb

end Examples

end CelestiaCore.Light
