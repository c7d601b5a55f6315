import CelestiaCore.Light.Client
import CelestiaCore.Light.CrossCheck

/-!
# What the light client saves

Every block saved was reached by verified steps, unless a replacement primary sent another block
with the same header during skipping verification. -/
namespace CelestiaCore.Light.Client
open Wire List

/-- Two states of a client with the same trusted store. -/
structure SameTrust (c c' : Client) : Prop where
  blocks : c'.blocks = c.blocks
  latest : c'.latestTrustedBlock = c.latestTrustedBlock

namespace SameTrust
variable {c c' c'' : Client}

theorem refl (c : Client) : SameTrust c c := ⟨rfl, rfl⟩

theorem trans (h : SameTrust c c') (h' : SameTrust c' c'') : SameTrust c c'' :=
  ⟨h'.blocks.trans h.blocks, h'.latest.trans h.latest⟩

end SameTrust

variable {trace : List LightBlock}

section Frame
variable {env : Env} {cfg : Config} {now : Time} {fuel : Nat}

theorem findNewPrimary_sameTrust (env : Env) (height : Int64) (remove : Bool) (c : Client) :
    SameTrust c (findNewPrimary env height remove c).2 := by
  unfold findNewPrimary
  split
  · exact .refl c
  split
  · dsimp only
    split <;> exact ⟨rfl, rfl⟩
  · dsimp only
    split <;> exact ⟨rfl, rfl⟩

theorem lightBlockFromPrimary_sameTrust (env : Env) (height : Int64) (c : Client) :
    SameTrust c (lightBlockFromPrimary env height c).2 := by
  unfold lightBlockFromPrimary
  split
  · exact ⟨rfl, rfl⟩
  · split_ifs
    · exact ⟨rfl, rfl⟩
    · exact .trans (show SameTrust c c.tick from ⟨rfl, rfl⟩)
        (findNewPrimary_sameTrust env height _ c.tick)

theorem runDetector_sameTrust {c c' : Client} {r : Except ClientError Unit}
    (h : runDetector env cfg now fuel trace c = some (r, c')) : SameTrust c c' := by
  unfold runDetector at h
  dsimp only at h
  split at h
  · simp at h
  · cases h
    exact ⟨rfl, rfl⟩

theorem runDetector_eq_ok {c c' : Client}
    (h : runDetector env cfg now fuel trace c = some (.ok (), c')) : 2 ≤ trace.length := by
  unfold runDetector at h
  dsimp only at h
  split at h
  · simp at h
  case h_2 r ws hdetect =>
    cases h
    obtain ⟨-, -, -, hlen, -⟩ := detectDivergence_eq_ok hdetect
    exact hlen

theorem scanResponses_answer {c : Client} {height : Int64} {is rm rm' : List Nat}
    {e e' : Option ProviderError} {lb : LightBlock} {i : Nat}
    (h : scanResponses env c height is rm e = (some (lb, i), rm', e')) :
    ∃ n p, env.answer n p 0 height = .ok lb := by
  induction is generalizing rm e with
  | nil => simp [scanResponses] at h
  | cons j js ih =>
    rw [scanResponses] at h
    split at h
    · exact ih h
    case h_2 w hw =>
      split at h
      case h_1 b hb =>
        cases h
        exact ⟨c.clock, w, hb⟩
      case h_2 e hb =>
        split_ifs at h
        · exact ih h
        · exact ih h

theorem findNewPrimary_answer {height : Int64} {remove : Bool} {c c' : Client} {lb : LightBlock}
    (h : findNewPrimary env height remove c = (.ok lb, c')) :
    ∃ n p, env.answer n p 0 height = .ok lb := by
  unfold findNewPrimary at h
  split at h
  · simp at h
  split at h
  case h_1 b i rm _ hscan =>
    dsimp only at h
    split at h
    · simp at h
    · cases h
      exact scanResponses_answer hscan
  case h_2 =>
    dsimp only at h
    split at h <;> simp at h

end Frame

variable {trusted : LightBlock}

section Sequential
variable {env : Env} {cfg : Config} {now : Time} {target : LightBlock} {s s' : SeqState}

/-- The block of an iteration: the target at its height, and an answer before it. -/
def interimOf (env : Env) (target : LightBlock) (s : SeqState) :
    Except ClientError LightBlock × Client :=
  if s.height = target.height then (.ok target, s.client)
  else lightBlockFromPrimary env s.height s.client

theorem interimOf_sameTrust (env : Env) (target : LightBlock) (s : SeqState) :
    SameTrust s.client (interimOf env target s).2 := by
  unfold interimOf
  split_ifs
  · exact .refl _
  · exact lightBlockFromPrimary_sameTrust env _ _

theorem interimOf_target {b : LightBlock} {c : Client} (h : interimOf env target s = (.ok b, c))
    (heq : s.height = target.height) : b = target := by
  rw [interimOf, if_pos heq] at h
  exact (Except.ok.inj (congrArg Prod.fst h)).symm

/-- An iteration verifies a block or replaces the primary, and the loop returns its trace only once
the height of the target is done. -/
theorem seqStep_cases : match seqStep env cfg now target s with
    | .inl s' => SameTrust s.client s'.client ∧
      ((∃ b, verifyAdjacent cfg s.verifiedBlock b now = .ok () ∧
        s.height ≤ target.height ∧ (s.height = target.height → b = target) ∧
        s'.height = s.height + 1 ∧ s'.verifiedBlock = b ∧ s'.trace = s.trace ++ [b]) ∨
      (s'.height = s.height ∧ s'.verifiedBlock = s.verifiedBlock ∧ s'.trace = s.trace))
    | .inr (r, c') => SameTrust s.client c' ∧
      ∀ trace, r = .ok trace → trace = s.trace ∧ ¬s.height ≤ target.height := by
  unfold seqStep
  by_cases hle : ¬s.height ≤ target.height
  · rw [if_pos hle]
    exact ⟨.refl _, fun trace htrace => ⟨(Except.ok.inj htrace).symm, hle⟩⟩
  rw [if_neg hle]
  have hframe := interimOf_sameTrust env target s
  rcases hinterim : interimOf env target s with ⟨res, c⟩
  rw [hinterim] at hframe
  have hscrutinee := hinterim
  unfold interimOf at hscrutinee
  rw [hscrutinee]
  cases res with
  | error e => exact ⟨hframe, by simp⟩
  | ok b =>
    dsimp only
    cases hv : verifyAdjacent cfg s.verifiedBlock b now with
    | ok u => exact ⟨hframe, .inl ⟨b, hv, not_not.1 hle, interimOf_target hinterim, rfl, rfl, rfl⟩⟩
    | error e =>
      cases e with
      | invalidHeader =>
        dsimp only
        split_ifs
        · exact ⟨hframe, by simp⟩
        have hboth := hframe.trans (findNewPrimary_sameTrust env target.height true c)
        rcases hfind : findNewPrimary env target.height true c with ⟨res, c₁⟩
        rw [hfind] at hboth
        cases res with
        | error e => cases e <;> exact ⟨hboth, by simp⟩
        | ok rb =>
          dsimp only
          split_ifs
          · exact ⟨hboth, by simp⟩
          · exact ⟨hboth, .inr ⟨rfl, rfl, rfl⟩⟩
      | _ => exact ⟨hframe, by simp⟩

/-- The state of the loop: a chain of verified blocks that ends in the target once its height is
done. -/
structure SeqInv (cfg : Config) (now : Time) (trusted target : LightBlock) (c : Client)
    (s : SeqState) : Prop where
  head : s.trace.head? = some trusted
  last : s.trace.getLast? = some s.verifiedBlock
  chain : VerifiedChain cfg now s.trace
  frame : SameTrust c s.client
  done : s.trace.length < 2 ∨ ∃ h : Int64, s.height = h + 1 ∧ h ≤ target.height ∧
    (h = target.height → s.verifiedBlock = target)

theorem SeqInv.next {c : Client} (hs : SeqInv cfg now trusted target c s)
    (h : seqStep env cfg now target s = .inl s') : SeqInv cfg now trusted target c s' := by
  have hstep := @seqStep_cases env cfg now target s
  rw [h] at hstep
  obtain ⟨hframe, ⟨b, hv, hle, htarget, hh, hb, ht⟩ | ⟨hh, hb, ht⟩⟩ := hstep
  · constructor
    case head =>
      rw [ht, head?_append, hs.head]
      rfl
    case last => simp [ht, hb]
    case chain =>
      rw [ht]
      exact hs.chain.snoc hs.last (verify_of_verifyAdjacent hv)
    case frame => exact hs.frame.trans hframe
    case done => exact .inr ⟨s.height, hh, hle, fun heq => hb.trans (htarget heq)⟩
  · constructor
    case head => rw [ht, hs.head]
    case last => rw [ht, hb, hs.last]
    case chain => rw [ht]; exact hs.chain
    case frame => exact hs.frame.trans hframe
    case done => rw [ht, hh, hb]; exact hs.done

theorem succ_le_of_lt {a b : Int64} (h : a < b) : a + 1 ≤ b := by
  have hlt := Int64.lt_iff_toInt_lt.1 h
  have hmax := Int64.toInt_lt b
  have hmin := Int64.le_toInt a
  rw [Int64.le_iff_toInt_le, Int64.toInt_add]
  show (a.toInt + 1).bmod (2 ^ 64) ≤ b.toInt
  rw [Int.bmod_eq_of_le (by omega) (by omega)]
  omega

theorem SeqInv.returned {c c' : Client} {r : Except ClientError (List LightBlock)}
    (hs : SeqInv cfg now trusted target c s) (h : seqStep env cfg now target s = .inr (r, c')) :
    SameTrust c c' ∧ ∀ trace, r = .ok trace → 2 ≤ trace.length →
      GoodTrace cfg now trusted target trace := by
  have hstep := @seqStep_cases env cfg now target s
  rw [h] at hstep
  obtain ⟨hframe, hdone⟩ := hstep
  refine ⟨hs.frame.trans hframe, fun trace htrace hlen => ?_⟩
  obtain ⟨rfl, hgt⟩ := hdone trace htrace
  refine ⟨hs.head, ?_, hs.chain, hlen⟩
  obtain hshort | ⟨height, heq, hle, hverified⟩ := hs.done
  · omega
  have hat : height = target.height := by
    by_contra hne
    refine hgt (heq ▸ succ_le_of_lt ?_)
    exact Int64.lt_of_le_of_ne hle hne
  rw [hs.last, hverified hat]

theorem verifySequential_good {fuel : Nat} {c c' : Client} {r : Except ClientError Unit}
    (h : verifySequential env cfg now fuel target trusted c = some (r, c')) :
    SameTrust c c' ∧ (r = .ok () → ∃ trace, GoodTrace cfg now trusted target trace) := by
  unfold verifySequential at h
  have hstart : SeqInv cfg now trusted target c
      ⟨trusted.height + 1, trusted, [trusted], c⟩ :=
    ⟨rfl, rfl, isChain_singleton _, .refl c, .inl (by simp)⟩
  have hpost : ∀ r', Loop.run (seqStep env cfg now target) fuel
      ⟨trusted.height + 1, trusted, [trusted], c⟩ = some r' →
      SameTrust c r'.2 ∧ ∀ trace, r'.1 = .ok trace → 2 ≤ trace.length →
        GoodTrace cfg now trusted target trace :=
    fun r' hr' => Loop.run_post (SeqInv cfg now trusted target c)
      (fun r => SameTrust c r.2 ∧ ∀ trace, r.1 = .ok trace → 2 ≤ trace.length →
        GoodTrace cfg now trusted target trace)
      (fun s s' hs hstep => hs.next hstep) (fun s r hs hstep => hs.returned hstep) hstart hr'
  split at h
  case h_1 => simp at h
  case h_2 e c₁ hrun =>
    cases h
    exact ⟨(hpost _ hrun).1, by simp⟩
  case h_3 trace c₁ hrun =>
    obtain ⟨hframe, hgood⟩ := hpost _ hrun
    refine ⟨hframe.trans (runDetector_sameTrust h), ?_⟩
    rintro rfl
    exact ⟨trace, hgood trace rfl (runDetector_eq_ok h)⟩

end Sequential

section Skipping
variable {env : Env} {cfg : Config} {now : Time} {fuel : Nat}

/-- No replacement primary sends another block with the header of a block. -/
def NoSwap (env : Env) (cfg : Config) (block : LightBlock) : Prop :=
  ∀ c replacementBlock c', findNewPrimary env block.height true c = (.ok replacementBlock, c') →
    replacementBlock.hash cfg.hashes = block.hash cfg.hashes → replacementBlock = block

theorem verifySkippingAgainstPrimary_sameTrust {rounds : Nat} {trusted target : LightBlock}
    {c c' : Client} {r : Except ClientError Unit}
    (h : verifySkippingAgainstPrimary env cfg now fuel trusted rounds target c = some (r, c')) :
    SameTrust c c' := by
  induction rounds generalizing target c with
  | zero => simp [verifySkippingAgainstPrimary] at h
  | succ rounds ih =>
    rw [verifySkippingAgainstPrimary] at h
    have htick : SameTrust c c.tick := ⟨rfl, rfl⟩
    split at h
    case h_1 => simp at h
    case h_2 => exact htick.trans (runDetector_sameTrust h)
    case h_3 =>
      dsimp only at h
      split at h
      · cases h
        exact htick
      have hnew := findNewPrimary_sameTrust env target.height true c.tick
      split at h
      case h_3 rb c₁ hfind =>
        rw [hfind] at hnew
        split_ifs at h
        · cases h
          exact htick.trans hnew
        · exact (htick.trans hnew).trans (ih h)
      all_goals
        rename_i hfind
        rw [hfind] at hnew
        cases h
        exact htick.trans hnew
    case h_4 => exact htick.trans (runDetector_sameTrust h)
    case h_5 =>
      cases h
      exact htick

/-- What skipping verification accepts is the end of a verified chain, unless a replacement primary
has sent another block with the same header. -/
theorem verifySkippingAgainstPrimary_good {rounds : Nat} {trusted target : LightBlock}
    {c c' : Client} (hswap : NoSwap env cfg target)
    (h : verifySkippingAgainstPrimary env cfg now fuel trusted rounds target c =
      some (.ok (), c')) : ∃ trace, GoodTrace cfg now trusted target trace := by
  induction rounds generalizing c with
  | zero => simp [verifySkippingAgainstPrimary] at h
  | succ rounds ih =>
    rw [verifySkippingAgainstPrimary] at h
    split at h
    case h_1 => simp at h
    case h_2 trace n hskip => exact ⟨trace, verifySkipping_trace _ hskip⟩
    case h_3 =>
      dsimp only at h
      split_ifs at h
      · simp at h
      split at h
      case h_3 rb c₁ hfind =>
        split_ifs at h with hhash
        · simp at h
        · obtain rfl := hswap _ rb c₁ hfind (not_not.1 hhash)
          exact ih h
      all_goals simp at h
    case h_4 =>
      have hlen := runDetector_eq_ok h
      simp at hlen
    case h_5 => simp at h

end Skipping

section Saved
variable {env : Env} {set : Settings} {now : Time} {fuel : Nat} {newLightBlock : LightBlock}
  {c c' : Client} {r : Except ClientError Unit}

/-- A block with a valid commit that verified steps lead to from a trusted, unexpired block. -/
structure Earned (cfg : Config) (now : Time) (c : Client) (b : LightBlock) : Prop where
  commit : verifyCommitLight cfg.crypto b.header.chainID b.validatorSet b.commit.blockID b.height
    b.commit = .ok ()
  chain : ∃ start trace, (start = c.latestTrustedBlock ∨ start ∈ c.blocks) ∧
    headerExpired start.toSignedHeader cfg.trustingPeriod now = false ∧
    trace.head? = some start ∧ trace.getLast? = some b ∧ VerifiedChain cfg now trace

theorem chainID_of_validateBasic {hs : Hashes} {sh : SignedHeader} {chainID : Bytes}
    (h : sh.validateBasic hs chainID = .ok ()) : sh.header.chainID = chainID := by
  unfold SignedHeader.validateBasic at h
  simp only [check_bind_eq_ok, mapError_eq_ok, reject_eq_ok, ne_eq, not_not] at h
  exact h.2.2.1

/-- The first step of a chain was verified, so its start has not expired; the last one was, so the
commit of its end is valid. -/
theorem earned_of_goodTrace {cfg : Config} {start target : LightBlock}
    (hstart : start = c.latestTrustedBlock ∨ start ∈ c.blocks)
    (h : GoodTrace cfg now start target trace) : Earned cfg now c target := by
  obtain ⟨hhead, hlast, hchain, hlen⟩ := h
  have hfirst : ∃ b, verify cfg start b now = .ok () := by
    obtain ⟨a, b, rest, rfl⟩ : ∃ a b rest, trace = a :: b :: rest := by
      match trace, hlen with
      | a :: b :: rest, _ => exact ⟨a, b, rest, rfl⟩
    cases hhead
    exact ⟨b, (isChain_cons_cons.1 hchain).1⟩
  have hend : ∃ a, verify cfg a target now = .ok () := by
    obtain ⟨front, rfl⟩ : ∃ front, trace = front ++ [target] :=
      getLast?_eq_some_iff.1 hlast
    have hne : front ≠ [] := by
      rintro rfl
      simp at hlen
    obtain ⟨-, -, hlink⟩ := isChain_append.1 hchain
    exact ⟨front.getLast hne, hlink _ (getLast?_eq_some_getLast hne) target (by simp)⟩
  obtain ⟨b, hb⟩ := hfirst
  obtain ⟨a, ha⟩ := hend
  constructor
  · have hverified := verify_eq_ok ha
    rw [chainID_of_validateBasic hverified.newHeader.basic]
    exact hverified.commit
  · exact ⟨start, trace, hstart, (verify_eq_ok hb).unexpired, hhead, hlast, hchain⟩

theorem mem_of_updateTrustedLightBlock {pruningSize : UInt16} {b : LightBlock}
    (hb : b ∈ (updateTrustedLightBlock pruningSize newLightBlock c).2.blocks) :
    b = newLightBlock ∨ b ∈ c.blocks := by
  unfold updateTrustedLightBlock at hb
  split at hb
  · exact .inr hb
  have hsaved : b ∈ (saveLightBlock newLightBlock c).blocks := by
    have hpruned : b ∈ (if 0 < pruningSize then prune pruningSize (saveLightBlock newLightBlock c)
        else saveLightBlock newLightBlock c).blocks := by
      dsimp only at hb
      split_ifs at hb ⊢ <;> exact hb
    split at hpruned
    · unfold prune at hpruned
      split at hpruned
      · exact hpruned
      · exact mem_of_mem_drop hpruned
    · exact hpruned
  simp only [saveLightBlock, mem_append, mem_cons, mem_filter] at hsaved
  rcases hsaved with h | h | h
  · exact .inr h.1
  · exact .inl h
  · exact .inr h.1

theorem mem_of_lightBlockBefore {height : Int64} {b : LightBlock}
    (h : lightBlockBefore height c = some b) : b ∈ c.blocks :=
  mem_of_mem_filter (mem_of_getLast? h)

/-- The condition under which the block that is verified is the block that is saved. -/
def VerifiesWhatItSaves (env : Env) (set : Settings) (block : LightBlock) : Prop :=
  set.verificationMode = .skipping → NoSwap env set.toConfig block

theorem verifyFunc_good (hswap : VerifiesWhatItSaves env set newLightBlock)
    (h : verifyFunc env set now fuel trusted newLightBlock c = some (r, c')) : SameTrust c c' ∧
      (r = .ok () → ∃ trace, GoodTrace set.toConfig now trusted newLightBlock trace) := by
  unfold verifyFunc at h
  cases hmode : set.verificationMode with
  | sequential =>
    rw [hmode] at h
    exact verifySequential_good h
  | skipping =>
    rw [hmode] at h
    refine ⟨verifySkippingAgainstPrimary_sameTrust h, ?_⟩
    rintro rfl
    exact verifySkippingAgainstPrimary_good (hswap hmode) h

theorem chooseVerification_good (hswap : VerifiesWhatItSaves env set newLightBlock)
    (hforward : ¬IsBackward newLightBlock c)
    (h : chooseVerification env set now fuel newLightBlock c = some (r, c')) :
    SameTrust c c' ∧ (r = .ok () → Earned set.toConfig now c newLightBlock) := by
  unfold chooseVerification at h
  by_cases hlatest : c.latestTrustedBlock.height ≤ newLightBlock.height
  · rw [if_pos hlatest] at h
    obtain ⟨hframe, hgood⟩ := verifyFunc_good hswap h
    refine ⟨hframe, fun hr => ?_⟩
    obtain ⟨trace, htrace⟩ := hgood hr
    exact earned_of_goodTrace (.inl rfl) htrace
  · rw [if_neg hlatest] at h
    have hfirst : ¬newLightBlock.height < c.firstTrustedHeight := fun hlt =>
      hforward ⟨Int64.not_le.1 hlatest, hlt⟩
    rw [if_neg hfirst] at h
    split at h
    case h_1 =>
      cases h
      exact ⟨.refl c, by simp⟩
    case h_2 closest hclosest =>
      obtain ⟨hframe, hgood⟩ := verifyFunc_good hswap h
      refine ⟨hframe, fun hr => ?_⟩
      obtain ⟨trace, htrace⟩ := hgood hr
      exact earned_of_goodTrace (.inr (mem_of_lightBlockBefore hclosest)) htrace

end Saved

/-- Forward verification saves only blocks that verified steps lead to, if no block is swapped for
another with the same header during skipping verification. -/
theorem forward_saves_earned (env : Env) (set : Settings) (now : Time) (fuel : Nat)
    (newLightBlock : LightBlock) (c c' : Client) (r : Except ClientError Unit)
    (hswap : VerifiesWhatItSaves env set newLightBlock) (hforward : ¬IsBackward newLightBlock c)
    (h : verifyLightBlock env set now fuel newLightBlock c = some (r, c')) :
    ∀ b ∈ c'.blocks, b ∈ c.blocks ∨ Earned set.toConfig now c b := by
  intro b hb
  unfold verifyLightBlock at h
  split at h
  case h_1 => simp at h
  case h_2 e c₁ hchoose =>
    cases h
    obtain ⟨hframe, -⟩ := chooseVerification_good hswap hforward hchoose
    exact .inl (hframe.blocks ▸ hb)
  case h_3 c₁ hchoose =>
    obtain ⟨hframe, hearned⟩ := chooseVerification_good hswap hforward hchoose
    have hsaved : b ∈ (updateTrustedLightBlock set.pruningSize newLightBlock c₁).2.blocks := by
      rw [Option.some.inj h]
      exact hb
    rcases mem_of_updateTrustedLightBlock hsaved with rfl | hold
    · exact .inr (hearned rfl)
    · exact .inl (hframe.blocks ▸ hold)

section Examples

def exampleSettings : Settings := ⟨exampleConfig, .skipping, 0⟩

/-- A client that trusts the block of height 1, with three providers. -/
def exampleClient : Client := ⟨0, [1, 2], [exampleBlock 1 1], 1, exampleBlock 1 1, 0⟩

def agreeingEnv : Env where
  answer _ _ _ h := if h = 3 then .ok (exampleBlock 3 1) else .error .lightBlockNotFound
  order _ n := range n

theorem forward_saves_earned_three :
    VerifiesWhatItSaves agreeingEnv exampleSettings (exampleBlock 3 1) ∧
      ¬IsBackward (exampleBlock 3 1) exampleClient ∧
      ∃ r c', verifyLightBlock agreeingEnv exampleSettings 100 10 (exampleBlock 3 1) exampleClient =
        some (r, c') ∧ Earned exampleConfig 100 exampleClient (exampleBlock 3 1) := by
  have hswap : VerifiesWhatItSaves agreeingEnv exampleSettings (exampleBlock 3 1) := by
    intro _ c b c' hfind _
    obtain ⟨clock, provider, hb⟩ := findNewPrimary_answer hfind
    simp only [agreeingEnv] at hb
    split_ifs at hb
    exact (Except.ok.inj hb).symm
  have hforward : ¬IsBackward (exampleBlock 3 1) exampleClient := by decide +kernel
  have hrun : (verifyLightBlock agreeingEnv exampleSettings 100 10 (exampleBlock 3 1)
      exampleClient).map (·.2.blocks) = some [exampleBlock 1 1, exampleBlock 3 1] := by
    decide +kernel
  obtain ⟨⟨r, c'⟩, hr, hblocks⟩ := Option.map_eq_some_iff.1 hrun
  have hmem : exampleBlock 3 1 ∈ c'.blocks := by
    rw [show c'.blocks = _ from hblocks]
    simp
  obtain hold | hearned := forward_saves_earned _ _ _ _ _ _ _ _ hswap hforward hr _ hmem
  · exact absurd hold (by decide +kernel)
  · exact ⟨hswap, hforward, r, c', hr, hearned⟩

def unsignedBlock : LightBlock :=
  { exampleBlock 3 1 with commit := { (exampleBlock 3 1).commit with
      signatures := [⟨.absent, [], Time.zero, []⟩] } }

/-- The primary has an unsigned target and a block of height 2 with a wrong signature; the witnesses
have the signed target. -/
def swappingEnv : Env where
  answer _ provider _ h :=
    if provider = 0 then .ok (exampleBlock h 2) else .ok (exampleBlock h 1)
  order _ n := range n

/-- The client verifies the block of the witness and saves the one of the primary, which nobody
signed. -/
theorem saves_unsigned_block :
    ∃ c', verifyLightBlock swappingEnv exampleSettings 100 10 unsignedBlock exampleClient =
        some (.ok (), c') ∧ ¬IsBackward unsignedBlock exampleClient ∧ unsignedBlock ∈ c'.blocks ∧
      unsignedBlock ∉ exampleClient.blocks ∧
      verifyCommitLight exampleConfig.crypto unsignedBlock.header.chainID
        unsignedBlock.validatorSet unsignedBlock.commit.blockID unsignedBlock.height
        unsignedBlock.commit ≠ .ok () := by
  have hrun : (verifyLightBlock swappingEnv exampleSettings 100 10 unsignedBlock
      exampleClient).map (fun p => (p.1, p.2.blocks)) =
        some (.ok (), [exampleBlock 1 1, unsignedBlock]) := by
    decide +kernel
  obtain ⟨⟨r, c'⟩, hr, hblocks⟩ := Option.map_eq_some_iff.1 hrun
  obtain ⟨rfl, hstore⟩ := Prod.mk.inj hblocks
  refine ⟨c', hr, by decide +kernel, ?_, by decide +kernel, by decide +kernel⟩
  rw [show c'.blocks = _ from hstore]
  simp

end Examples

/-! `cleanupAfter` of `light/client.go`: the search for a block to delete starts below the latest
trusted block, which therefore stays. -/

def deleteLightBlock (height : Int64) (c : Client) : Client :=
  { c with blocks := c.blocks.filter (·.height ≠ height), size := c.size - 1 }

/-- The loop of `cleanupAfter`, in at most a number of iterations. -/
def cleanupLoop (height : Int64) : ℕ → Int64 → Client → Option Client
  | 0, _, _ => none
  | n + 1, prevHeight, c =>
    match lightBlockBefore prevHeight c with
    | none => some c
    | some h =>
      if h.height ≤ height then some c
      else cleanupLoop height n h.height (deleteLightBlock h.height c)

/-- The store after `cleanupAfter` and the block that it restores as the latest trusted one. -/
def cleanupAfter (height : Int64) (fuel : ℕ) (c : Client) : Option (Client × Option LightBlock) :=
  (cleanupLoop height fuel c.latestTrustedBlock.height c).map fun c => (c, c.blocks.getLast?)

/-- The trusted store in order of height, with the latest trusted block as its last. -/
structure InOrder (c : Client) : Prop where
  sorted : c.blocks.Pairwise fun a b => a.height < b.height
  latest : c.blocks.getLast? = some c.latestTrustedBlock

theorem le_getLast {l : List LightBlock} {b h : LightBlock}
    (hsorted : l.Pairwise fun a b => a.height < b.height) (hlast : l.getLast? = some h)
    (hb : b ∈ l) : b.height ≤ h.height := by
  obtain ⟨front, rfl⟩ := List.getLast?_eq_some_iff.1 hlast
  rcases mem_append.1 hb with hb | hb
  · exact Int64.le_of_lt ((pairwise_append.1 hsorted).2.2 b hb h (mem_singleton_self h))
  · rw [mem_singleton.1 hb]
    exact Int64.le_refl _

/-- What the loop leaves: the blocks up to the height, and those from `prevHeight` on. -/
theorem cleanupLoop_eq (height prevHeight : Int64) {n : ℕ} {c : Client}
    (hsorted : c.blocks.Pairwise fun a b => a.height < b.height) (hn : c.blocks.length < n) :
    ∃ size, cleanupLoop height n prevHeight c = some { c with
      blocks := c.blocks.filter fun b => b.height ≤ height ∨ prevHeight ≤ b.height, size } := by
  induction n generalizing prevHeight c with
  | zero => omega
  | succ n ih =>
    rw [cleanupLoop]
    cases hlast : lightBlockBefore prevHeight c with
    | none =>
      have hnone := filter_eq_nil_iff.1 (List.getLast?_eq_none_iff.1 hlast)
      refine ⟨c.size, ?_⟩
      rw [filter_eq_self.2 fun b hb => ?_]
      simpa using Or.inr (Int64.not_lt.1 (by simpa using hnone b hb))
    | some h =>
      obtain ⟨hmem, hlt⟩ := mem_filter.1 (mem_of_getLast? hlast)
      have hlt : h.height < prevHeight := of_decide_eq_true hlt
      have hmax : ∀ b ∈ c.blocks, b.height < prevHeight → b.height ≤ h.height := fun b hb hbelow =>
        le_getLast (hsorted.sublist filter_sublist) hlast
          (mem_filter.2 ⟨hb, decide_eq_true hbelow⟩)
      dsimp only
      split_ifs with hle
      · refine ⟨c.size, ?_⟩
        rw [filter_eq_self.2 fun b hb => ?_]
        have hb := hmax b hb
        simp only [Int64.le_iff_toInt_le, Int64.lt_iff_toInt_lt, decide_eq_true_eq] at *
        omega
      · obtain ⟨size, hloop⟩ := ih h.height (c := deleteLightBlock h.height c)
          (hsorted.sublist filter_sublist) (Nat.lt_of_lt_of_le
            (length_filter_lt_length_iff_exists.2 ⟨h, hmem, by simp⟩) (by omega))
        refine ⟨size, hloop.trans ?_⟩
        simp only [deleteLightBlock, filter_filter]
        rw [filter_congr fun b hb => ?_]
        have hb := hmax b hb
        simp only [Int64.le_iff_toInt_le, Int64.lt_iff_toInt_lt, ← Int64.toInt_inj, ne_eq,
          ← Bool.decide_and, decide_eq_decide] at *
        omega

/-- The blocks above the height go, except the latest trusted one, which stays the latest. So the
store is rolled back to the height if and only if nothing is above it. -/
theorem cleanupAfter_exact_iff (height : Int64) (c : Client) (hc : InOrder c) :
    ∃ c' latest, cleanupAfter height (c.blocks.length + 1) c = some (c', latest) ∧
      (c'.blocks = c.blocks.filter (·.height ≤ height) ∧
        latest = (c.blocks.filter (·.height ≤ height)).getLast? ↔
          c.latestTrustedBlock.height ≤ height) := by
  obtain ⟨size, hloop⟩ := cleanupLoop_eq height c.latestTrustedBlock.height hc.sorted
    (Nat.lt_succ_self _)
  rw [cleanupAfter, hloop]
  have hmem : c.latestTrustedBlock ∈ c.blocks := mem_of_getLast? hc.latest
  refine ⟨_, _, rfl, fun h => ?_, fun hle => ?_⟩
  · have hstays : c.latestTrustedBlock ∈ c.blocks.filter (·.height ≤ height) := by
      rw [← h.1]
      exact mem_filter.2 ⟨hmem, by simp⟩
    simpa using (mem_filter.1 hstays).2
  · have hsame : c.blocks.filter (fun b => b.height ≤ height ∨
        c.latestTrustedBlock.height ≤ b.height) = c.blocks.filter (·.height ≤ height) :=
      filter_congr fun b hb => by
        simp [Int64.le_trans (le_getLast hc.sorted hc.latest hb) hle]
    exact ⟨hsame, by rw [← hsame]⟩

/-- A client that trusts the blocks of heights 1 and 3. -/
def twoBlocksClient : Client :=
  ⟨0, [1, 2], [exampleBlock 1 1, exampleBlock 3 1], 2, exampleBlock 3 1, 0⟩

theorem cleanupAfter_nothing_above :
    ∃ c' latest, cleanupAfter 3 3 twoBlocksClient = some (c', latest) ∧
      c'.blocks = twoBlocksClient.blocks.filter (·.height ≤ 3) ∧
      latest = (twoBlocksClient.blocks.filter (·.height ≤ 3)).getLast? := by
  obtain ⟨c', latest, hrun, hexact⟩ := cleanupAfter_exact_iff 3 twoBlocksClient
    ⟨by decide +kernel, rfl⟩
  exact ⟨c', latest, hrun, hexact.2 (by decide +kernel)⟩

/-- After a roll back to height 1 the block of height 3 is still there and still the latest. -/
theorem cleanupAfter_keeps_latest :
    (cleanupAfter 1 3 twoBlocksClient).map (fun r => (r.1.blocks, r.2)) =
      some ([exampleBlock 1 1, exampleBlock 3 1], some (exampleBlock 3 1)) := by
  decide +kernel

end CelestiaCore.Light.Client
