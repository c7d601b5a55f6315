import CelestiaCore.Light.Verifier
import CelestiaCore.Program.Loop

/-!
# Skipping verification

`verifySkipping` of `light/client.go`: bisection with a cache of the blocks that the source has
sent. -/
namespace CelestiaCore.Light
open Wire List Int64 Nat Option

/-- What a provider returns in place of a light block. -/
inductive ProviderError where
  | heightTooHigh
  | lightBlockNotFound
  | noResponse
  | badLightBlock
  | canceled
  | deadlineExceeded
  | other (msg : String)
  deriving DecidableEq, Repr

/-- Errors for which `verifySkipping` and `findNewPrimary` do not blame the provider. -/
def ProviderError.isBenign : ProviderError → Bool
  | .heightTooHigh | .lightBlockNotFound | .noResponse => true
  | _ => false

/-- The reason of an `ErrVerificationFailed`. -/
inductive Reason where
  | light (e : LightError)
  | provider (e : ProviderError)
  | noWitnesses
  deriving DecidableEq, Repr

/-- What the functions of the client return as an error, or how they panic. -/
inductive ClientError where
  | light (e : LightError)
  | provider (e : ProviderError)
  | verificationFailed (fromHeight toHeight : Int64) (reason : Reason)
  | noWitnesses
  | lightClientAttack
  | failedHeaderCrossReferencing
  | proposerPrioritiesDiverge (witnessHash : Bytes) (witnessIndex : Nat) (primaryHash : Bytes)
  | other (msg : String)
  | wrapped (msg : String) (e : ClientError)
  | panic (msg : String)
  deriving DecidableEq, Repr

/-- The answers of a provider: to the request with a number, for a height. -/
abbrev Source := Nat → Int64 → Except ProviderError LightBlock

def verifySkippingNumerator : Int64 := 9
def verifySkippingDenominator : Int64 := 16

def pivotHeight (verified upper : Int64) : Int64 :=
  verified + (upper - verified) * verifySkippingNumerator / verifySkippingDenominator

/-- The variables of the loop of `verifySkipping`, with the number of requests so far. -/
structure SkipState where
  blockCache : List LightBlock
  depth : Nat
  verifiedBlock : LightBlock
  trace : List LightBlock
  asked : Nat

section Model
variable (cfg : Config) (source : Source) (now : Time) (newLightBlock : LightBlock)

/-- One iteration of the loop: the next state, or what is returned and the number of requests. -/
def skipStep (s : SkipState) : SkipState ⊕ (Except ClientError (List LightBlock) × Nat) :=
  match s.blockCache[s.depth]? with
  | none => .inr (.error (.panic "index out of range"), s.asked)
  | some block =>
    match verify cfg s.verifiedBlock block now with
    | .ok () =>
      if s.depth = 0 then .inr (.ok (s.trace ++ [newLightBlock]), s.asked)
      else .inl { s with
        verifiedBlock := block
        blockCache := s.blockCache.take s.depth
        depth := 0
        trace := s.trace ++ [block] }
    | .error (.newValSetCantBeTrusted got needed) =>
      if s.depth + 1 = s.blockCache.length then
        let pivot := pivotHeight s.verifiedBlock.height block.height
        match source s.asked pivot with
        | .ok interimBlock => .inl { s with
            -- the source appends the block in the switch and again after it
            blockCache := s.blockCache ++ [interimBlock] ++ [interimBlock]
            depth := s.depth + 1
            asked := s.asked + 1 }
        | .error e =>
          if e.isBenign then .inr (.error (.light (.newValSetCantBeTrusted got needed)),
            s.asked + 1)
          else .inr (.error (.verificationFailed s.verifiedBlock.height pivot (.provider e)),
            s.asked + 1)
      else .inl { s with depth := s.depth + 1 }
    | .error (.panic msg) => .inr (.error (.panic msg), s.asked)
    | .error err =>
      .inr (.error (.verificationFailed s.verifiedBlock.height block.height (.light err)), s.asked)

def skipStart (trustedBlock : LightBlock) (asked : Nat) : SkipState :=
  ⟨[newLightBlock], 0, trustedBlock, [trustedBlock], asked⟩

/-- `verifySkipping` in at most `fuel` iterations, after `asked` requests to the source. -/
def verifySkipping (trustedBlock : LightBlock) (asked fuel : Nat) :
    Option (Except ClientError (List LightBlock) × Nat) :=
  Loop.run (skipStep cfg source now newLightBlock) fuel (skipStart newLightBlock trustedBlock asked)

end Model

/-- Every block of a list passes `Verify` against the one before it. -/
def VerifiedChain (cfg : Config) (now : Time) (trace : List LightBlock) : Prop :=
  trace.IsChain fun a b => verify cfg a b now = .ok ()

section Trace
variable {cfg : Config} {source : Source} {now : Time} {target start : LightBlock}
  {trace : List LightBlock}

theorem VerifiedChain.snoc {a b : LightBlock}
    (h : VerifiedChain cfg now trace) (hlast : trace.getLast? = some a)
    (hab : verify cfg a b now = .ok ()) : VerifiedChain cfg now (trace ++ [b]) := by
  refine isChain_append.2 ⟨h, isChain_singleton b, fun x hx y hy => ?_⟩
  obtain rfl : x = a := some.inj (hx.symm.trans hlast)
  obtain rfl : y = b := by simpa using hy.symm
  exact hab

theorem VerifiedChain.increasing (h : VerifiedChain cfg now trace) :
    trace.Pairwise fun a b => a.height < b.height := by
  have hchain : trace.IsChain fun a b : LightBlock => a.height < b.height :=
    List.IsChain.imp (fun a b hab => (verify_eq_ok hab).newHeader.height_lt) h
  have : IsTrans LightBlock fun a b => a.height < b.height := ⟨fun _ _ _ => Int64.lt_trans⟩
  exact hchain.pairwise

/-- The trace of a state: from the trusted block to the block that is verified. -/
structure TraceInv (cfg : Config) (now : Time) (start target : LightBlock) (s : SkipState) :
    Prop where
  head : s.trace.head? = some start
  last : s.trace.getLast? = some s.verifiedBlock
  chain : VerifiedChain cfg now s.trace
  cache : s.blockCache.head? = some target

/-- What a trace that is returned is. -/
structure GoodTrace (cfg : Config) (now : Time) (start target : LightBlock)
    (trace : List LightBlock) : Prop where
  head : trace.head? = some start
  last : trace.getLast? = some target
  chain : VerifiedChain cfg now trace
  two_le : 2 ≤ trace.length

/-- The cases of an iteration, with its outcome. -/
inductive SkipCase (cfg : Config) (source : Source) (now : Time) (target : LightBlock)
    (s : SkipState) : SkipState ⊕ (Except ClientError (List LightBlock) × Nat) → Prop where
  | outOfRange (hblock : s.blockCache[s.depth]? = none) (e : ClientError) :
    SkipCase cfg source now target s (.inr (.error e, s.asked))
  | finished (block : LightBlock) (hblock : s.blockCache[s.depth]? = some block)
    (hverify : verify cfg s.verifiedBlock block now = .ok ()) (hdepth : s.depth = 0) :
    SkipCase cfg source now target s (.inr (.ok (s.trace ++ [target]), s.asked))
  | advance (block : LightBlock) (hblock : s.blockCache[s.depth]? = some block)
    (hverify : verify cfg s.verifiedBlock block now = .ok ()) (hdepth : s.depth ≠ 0) :
    SkipCase cfg source now target s (.inl ⟨s.blockCache.take s.depth, 0, block,
      s.trace ++ [block], s.asked⟩)
  | deeper (block : LightBlock) (hblock : s.blockCache[s.depth]? = some block) (got needed : Int)
    (hverify : verify cfg s.verifiedBlock block now = .error (.newValSetCantBeTrusted got needed))
    (hlen : s.depth + 1 ≠ s.blockCache.length) :
    SkipCase cfg source now target s (.inl { s with depth := s.depth + 1 })
  | fetched (block : LightBlock) (hblock : s.blockCache[s.depth]? = some block) (got needed : Int)
    (hverify : verify cfg s.verifiedBlock block now = .error (.newValSetCantBeTrusted got needed))
    (hlen : s.depth + 1 = s.blockCache.length) (interim : LightBlock)
    (hsource : source s.asked (pivotHeight s.verifiedBlock.height block.height) = .ok interim) :
    SkipCase cfg source now target s (.inl ⟨s.blockCache ++ [interim, interim], s.depth + 1,
      s.verifiedBlock, s.trace, s.asked + 1⟩)
  | unanswered (block : LightBlock) (hblock : s.blockCache[s.depth]? = some block)
    (got needed : Int)
    (hverify : verify cfg s.verifiedBlock block now = .error (.newValSetCantBeTrusted got needed))
    (hlen : s.depth + 1 = s.blockCache.length) (e : ClientError) :
    SkipCase cfg source now target s (.inr (.error e, s.asked + 1))
  | rejected (block : LightBlock) (hblock : s.blockCache[s.depth]? = some block) (e : ClientError) :
    SkipCase cfg source now target s (.inr (.error e, s.asked))

variable (cfg source now target) in
theorem skipStep_case (s : SkipState) :
    SkipCase cfg source now target s (skipStep cfg source now target s) := by
  unfold skipStep
  split
  case h_1 hblock => exact .outOfRange hblock _
  case h_2 block hblock =>
    split
    case h_1 hv =>
      split_ifs with hd
      · exact .finished block hblock hv hd
      · exact .advance block hblock hv hd
    case h_2 got needed hv =>
      split_ifs with hlen
      · dsimp only
        split
        case h_1 interim hs =>
          simpa using SkipCase.fetched block hblock got needed hv hlen interim hs
        case h_2 e hs =>
          split_ifs
          · exact .unanswered block hblock got needed hv hlen _
          · exact .unanswered block hblock got needed hv hlen _
      · exact .deeper block hblock got needed hv hlen
    case h_3 => exact .rejected block hblock _
    case h_4 => exact .rejected block hblock _

/-- Whatever the source answers, a trace that is returned is a chain of verified blocks. -/
theorem verifySkipping_trace (source : Source) {asked fuel asked' : Nat}
    (h : verifySkipping cfg source now target start asked fuel = some (.ok trace, asked')) :
    GoodTrace cfg now start target trace := by
  refine Loop.run_post (TraceInv cfg now start target)
    (fun r => ∀ trace, r.1 = .ok trace → GoodTrace cfg now start target trace) ?_ ?_ ?_ h trace rfl
  · intro s s' hs hstep
    have hcase := skipStep_case cfg source now target s
    rw [hstep] at hcase
    cases hcase with
    | advance block hblock hv hd =>
      refine ⟨?_, by simp, hs.chain.snoc hs.last hv, (head?_take.trans (if_neg hd)).trans hs.cache⟩
      rw [head?_append, hs.head]
      rfl
    | deeper => exact ⟨hs.head, hs.last, hs.chain, hs.cache⟩
    | fetched =>
      refine ⟨hs.head, hs.last, hs.chain, ?_⟩
      rw [head?_append, hs.cache]
      rfl
  · intro s r hs hstep trace htrace
    have hcase := skipStep_case cfg source now target s
    rw [hstep] at hcase
    cases hcase with
    | finished block hblock hv hd =>
      rw [hd, ← head?_eq_getElem?, hs.cache] at hblock
      cases hblock
      cases htrace
      have hpos : 0 < s.trace.length :=
        length_pos_iff.2 fun hnil => by simpa [hnil] using hs.head
      refine ⟨?_, by simp, hs.chain.snoc hs.last hv, ?_⟩
      · rw [head?_append, hs.head]
        rfl
      · simp only [length_append, length_singleton]
        omega
    | outOfRange => cases htrace
    | unanswered => cases htrace
    | rejected => cases htrace
  · exact ⟨rfl, rfl, isChain_singleton start, rfl⟩

end Trace

section Cache

/-- The cache of a run: the target, and each interim block twice. -/
def cacheOf (target : LightBlock) (pivots : List LightBlock) : List LightBlock :=
  target :: pivots.flatMap fun b => [b, b]

variable (target : LightBlock) (pivots : List LightBlock)

@[simp] theorem length_cacheOf : (cacheOf target pivots).length = 2 * pivots.length + 1 := by
  induction pivots with
  | nil => rfl
  | cons b bs ih =>
    simp only [cacheOf, flatMap_cons, length_cons, length_append, length_nil] at ih ⊢
    omega

theorem cacheOf_append (b : LightBlock) :
    cacheOf target (pivots ++ [b]) = cacheOf target pivots ++ [b, b] := by
  simp [cacheOf]

theorem getElem?_cacheOf_succ (i : Nat) : (cacheOf target pivots)[i + 1]? = pivots[i / 2]? := by
  show (pivots.flatMap fun b => [b, b])[i]? = pivots[i / 2]?
  induction pivots generalizing i with
  | nil => rfl
  | cons b bs ih =>
    match i with
    | 0 => rfl
    | 1 => rfl
    | i + 2 =>
      have hdiv : (i + 2) / 2 = i / 2 + 1 := by omega
      rw [hdiv, getElem?_cons_succ, ← ih i]
      rfl

theorem take_cacheOf (j : Nat) :
    (cacheOf target pivots).take (2 * j + 1) = cacheOf target (pivots.take j) := by
  show target :: (pivots.flatMap fun b => [b, b]).take (2 * j) = target :: _
  congr 1
  induction pivots generalizing j with
  | nil => simp
  | cons b bs ih =>
    cases j with
    | zero => rfl
    | succ j =>
      show (b :: b :: bs.flatMap fun b => [b, b]).take (2 * j + 1 + 1) = _
      rw [take_succ_cons, take_succ_cons, ih j]
      rfl

end Cache

section Termination
variable {cfg : Config} {source : Source} {now : Time} {target start : LightBlock} {asked₀ : Nat}

theorem tdiv_sixteen_bounds (x : Int) : (0 ≤ x → 0 ≤ x.tdiv 16 ∧ x.tdiv 16 * 16 ≤ x) ∧
      (x ≤ 0 → x.tdiv 16 ≤ 0 ∧ x ≤ x.tdiv 16 * 16) := by
  constructor
  · intro hx
    rw [Int.tdiv_eq_ediv_of_nonneg hx]
    omega
  · intro hx
    have hneg := Int.tdiv_eq_ediv_of_nonneg (b := 16) (show 0 ≤ -x by omega)
    rw [Int.neg_tdiv] at hneg
    omega

theorem pivotHeight_lt {v h : Int64} (hv : 0 ≤ v.toInt) (hlt : v.toInt < h.toInt) :
    (pivotHeight v h).toInt < h.toInt := by
  have hh := toInt_lt h
  have hsub : (h - v).toInt = h.toInt - v.toInt := by
    rw [toInt_sub, Int.bmod_eq_of_le (by omega) (by omega)]
  obtain ⟨x, hx⟩ : ∃ x, x = (h - v) * verifySkippingNumerator := ⟨_, rfl⟩
  have hxv : x.toInt = ((h.toInt - v.toInt) * 9).bmod (2 ^ 64) := by
    rw [hx, toInt_mul, hsub]
    rfl
  have hle := le_toInt x
  have hub := toInt_lt x
  obtain ⟨hpos, hneg⟩ := tdiv_sixteen_bounds x.toInt
  have hq : (x / verifySkippingDenominator).toInt = x.toInt.tdiv 16 := by
    rw [toInt_div]
    show (x.toInt.tdiv 16).bmod (2 ^ 64) = _
    rw [Int.bmod_eq_of_le (by omega) (by omega)]
  -- without overflow the quotient is below the difference, and with it the difference is large
  have hqlt : x.toInt.tdiv 16 < h.toInt - v.toInt := by
    by_cases hsmall : (h.toInt - v.toInt) * 9 < 2 ^ 63
    · rw [Int.bmod_eq_of_le (by omega) (by omega)] at hxv
      omega
    · omega
  have hsum : (pivotHeight v h).toInt = v.toInt + x.toInt.tdiv 16 := by
    show (v + (h - v) * verifySkippingNumerator / verifySkippingDenominator).toInt = _
    rw [← hx, toInt_add, hq]
    rw [Int.bmod_eq_of_le (by omega) (by omega)]
  rw [hsum]
  omega

theorem length_le_of_decreasing {v : Int} {top : LightBlock} {blocks : List LightBlock}
    (hdec : (top :: blocks).Pairwise fun a b => b.height.toInt < a.height.toInt)
    (habove : ∀ b ∈ top :: blocks, v < b.height.toInt) :
    blocks.length + v + 1 ≤ top.height.toInt := by
  induction blocks generalizing top with
  | nil =>
    have := habove top (mem_cons_self)
    simp only [length_nil]
    omega
  | cons b bs ih =>
    have hrest := ih (List.Pairwise.of_cons hdec) fun x hx => habove x (mem_cons_of_mem _ hx)
    have hfirst := rel_of_pairwise_cons hdec (mem_cons_self (a := b) (l := bs))
    simp only [length_cons]
    omega

/-- A state of the loop: the interim blocks, falling, above the verified block, and no more requests
than heights passed and blocks cached. -/
structure SkipInv (cfg : Config) (now : Time) (start target : LightBlock) (asked₀ : Nat)
    (s : SkipState) (pivots : List LightBlock) : Prop where
  cache : s.blockCache = cacheOf target pivots
  depth_le : s.depth ≤ 2 * pivots.length
  decreasing : (target :: pivots).Pairwise fun a b => b.height.toInt < a.height.toInt
  above : ∀ b ∈ target :: pivots, s.verifiedBlock.height.toInt < b.height.toInt
  start_le : start.height.toInt ≤ s.verifiedBlock.height.toInt
  failed : ∀ j b, s.depth = 2 * j + 2 → pivots[j]? = some b →
    verify cfg s.verifiedBlock b now ≠ .ok ()
  asked : (s.asked : Int) ≤
    asked₀ + (s.verifiedBlock.height.toInt - start.height.toInt) + pivots.length

/-- A state whose next iteration rejects the block that overflow has put below the verified one. -/
structure Doomed (start target : LightBlock) (asked₀ : Nat) (s : SkipState) : Prop where
  low : ∃ b, s.blockCache[s.depth]? = some b ∧ b.height.toInt ≤ s.verifiedBlock.height.toInt
  asked : (s.asked : Int) < asked₀ + (target.height.toInt - start.height.toInt)

/-- The measure of the loop: every advance of the verified block outweighs any depth. -/
def skipMeasure (start target : LightBlock) (s : SkipState) : Nat :=
  (target.height.toInt - s.verifiedBlock.height.toInt).toNat *
    (2 * (target.height.toInt - start.height.toInt).toNat + 1) - s.depth

namespace SkipInv
variable {s : SkipState} {pivots : List LightBlock}
    (h : SkipInv cfg now start target asked₀ s pivots)
include h

theorem verified_lt : s.verifiedBlock.height.toInt < target.height.toInt :=
  h.above target mem_cons_self

theorem length_le : pivots.length + s.verifiedBlock.height.toInt + 1 ≤ target.height.toInt :=
  length_le_of_decreasing h.decreasing h.above

theorem asked_lt : (s.asked : Int) < asked₀ + (target.height.toInt - start.height.toInt) := by
  have hlen := h.length_le
  have hasked := h.asked
  omega

theorem depth_lt_weight : s.depth < 2 * (target.height.toInt - start.height.toInt).toNat + 1 := by
  have hlen := h.length_le
  have hstart := h.start_le
  have hdepth := h.depth_le
  omega

theorem measure_deeper {s' : SkipState} (hv : s'.verifiedBlock = s.verifiedBlock)
    (hd : s'.depth = s.depth + 1) : skipMeasure start target s' < skipMeasure start target s := by
  have hlt := h.verified_lt
  have hone : 1 ≤ (target.height.toInt - s.verifiedBlock.height.toInt).toNat := by omega
  have hprod := mul_le_mul_right
    (2 * (target.height.toInt - start.height.toInt).toNat + 1) hone
  have hdepth := h.depth_lt_weight
  unfold skipMeasure
  rw [hv, hd]
  omega

theorem measure_advance {s' : SkipState}
    (hv : s.verifiedBlock.height.toInt < s'.verifiedBlock.height.toInt)
    (ht : s'.verifiedBlock.height.toInt < target.height.toInt) :
    skipMeasure start target s' < skipMeasure start target s := by
  have hlt := h.verified_lt
  have hdepth := h.depth_lt_weight
  have hsucc : (target.height.toInt - s'.verifiedBlock.height.toInt).toNat + 1 ≤
      (target.height.toInt - s.verifiedBlock.height.toInt).toNat := by omega
  have hprod := mul_le_mul_right
    (2 * (target.height.toInt - start.height.toInt).toNat + 1) hsucc
  rw [Nat.add_mul, Nat.one_mul] at hprod
  unfold skipMeasure
  omega

variable {block : LightBlock}

theorem block_mem (hblock : s.blockCache[s.depth]? = some block) : block ∈ target :: pivots := by
  rw [h.cache] at hblock
  cases hd : s.depth with
  | zero =>
    rw [hd] at hblock
    cases hblock
    exact mem_cons_self
  | succ d =>
    rw [hd, getElem?_cacheOf_succ] at hblock
    exact mem_cons_of_mem _ (mem_of_getElem? hblock)

theorem last_lowest (hblock : s.blockCache[s.depth]? = some block)
    (hlen : s.depth + 1 = s.blockCache.length) :
    ∀ b ∈ target :: pivots, block.height.toInt ≤ b.height.toInt := by
  rw [h.cache] at hblock hlen
  rw [length_cacheOf] at hlen
  have hlast : (target :: pivots)[pivots.length]? = some block := by
    cases hp : pivots.length with
    | zero =>
      obtain rfl := length_eq_zero_iff.1 hp
      rwa [show s.depth = 0 by simpa using hlen] at hblock
    | succ k =>
      rw [show s.depth = 2 * k + 1 + 1 by omega, getElem?_cacheOf_succ,
        show (2 * k + 1) / 2 = k by omega] at hblock
      rwa [getElem?_cons_succ]
  intro b hb
  obtain ⟨i, hi⟩ := mem_iff_getElem?.1 hb
  obtain ⟨hi', hbi⟩ := List.getElem?_eq_some_iff.1 hi
  obtain ⟨hl', hbl⟩ := List.getElem?_eq_some_iff.1 hlast
  rcases lt_or_ge i pivots.length with hlt | hge
  · have := pairwise_iff_getElem.1 h.decreasing i pivots.length hi' hl' hlt
    rw [hbi, hbl] at this
    omega
  · have hlen' : (target :: pivots).length = pivots.length + 1 := length_cons
    obtain rfl : i = pivots.length := by omega
    rw [← hbi, ← hbl]

theorem advance_index (hblock : s.blockCache[s.depth]? = some block)
    (hverify : verify cfg s.verifiedBlock block now = .ok ()) (hdepth : s.depth ≠ 0) :
    ∃ j, s.depth = 2 * j + 1 ∧ pivots[j]? = some block := by
  obtain ⟨d, hd⟩ := exists_eq_succ_of_ne_zero hdepth
  rw [h.cache, hd, getElem?_cacheOf_succ] at hblock
  refine ⟨d / 2, ?_, hblock⟩
  by_contra hne
  exact h.failed (d / 2) block (by omega) hblock hverify

theorem advanced {j : Nat}
    (hj : pivots[j]? = some block) (trace : List LightBlock) : SkipInv cfg now start target asked₀
      ⟨s.blockCache.take (2 * j + 1), 0, block, trace, s.asked⟩ (pivots.take j) := by
  obtain ⟨hjlt, hget⟩ := List.getElem?_eq_some_iff.1 hj
  have hsplit : pivots = pivots.take j ++ block :: pivots.drop (j + 1) := by
    rw [← hget, getElem_cons_drop, take_append_drop]
  have hdec := h.decreasing
  rw [hsplit, ← cons_append, pairwise_append] at hdec
  obtain ⟨hfront, hback, hcross⟩ := hdec
  have habove : ∀ b ∈ block :: pivots.drop (j + 1),
      s.verifiedBlock.height.toInt < b.height.toInt := by
    intro b hb
    refine h.above b (mem_cons_of_mem _ ?_)
    rw [hsplit]
    exact mem_append_right _ hb
  have hdropped := length_le_of_decreasing hback habove
  have hlow := habove block mem_cons_self
  have hasked := h.asked
  have hstart := h.start_le
  constructor
  case cache =>
    show s.blockCache.take (2 * j + 1) = _
    rw [h.cache, take_cacheOf]
  case depth_le => exact zero_le _
  case decreasing => exact hfront
  case above => exact fun b hb => hcross b hb block mem_cons_self
  case start_le =>
    show start.height.toInt ≤ block.height.toInt
    omega
  case failed =>
    intro i b hi
    cases hi
  case asked =>
    show (s.asked : Int) ≤ asked₀ + (block.height.toInt - start.height.toInt) + _
    rw [length_drop] at hdropped
    rw [length_take]
    omega

/-- Going deeper keeps the cache; from the first copy of a block this needs that it has failed. -/
theorem deepened (hblock : s.blockCache[s.depth]? = some block)
    (hverify : verify cfg s.verifiedBlock block now ≠ .ok ())
    (hlen : s.depth + 1 ≠ s.blockCache.length) :
    SkipInv cfg now start target asked₀ { s with depth := s.depth + 1 } pivots := by
  have hdepth := h.depth_le
  have hcache := h.cache
  refine { h with depth_le := ?_, failed := fun j b hj hb => ?_ }
  · show s.depth + 1 ≤ _
    rw [hcache, length_cacheOf] at hlen
    omega
  · rw [hcache, show s.depth = 2 * j + 1 from succ.inj hj, getElem?_cacheOf_succ,
      Nat.mul_div_cancel_left j (by decide), hb] at hblock
    cases hblock
    exact hverify

variable {block : LightBlock} (hblock : s.blockCache[s.depth]? = some block)
    (hlen : s.depth + 1 = s.blockCache.length)
include hblock hlen

/-- A request is made only when no block of the cache is adjacent to the verified one. -/
theorem asked_succ_lt {got needed : Int} (hverify :
      verify cfg s.verifiedBlock block now = .error (.newValSetCantBeTrusted got needed)) :
    ((s.asked + 1 : Nat) : Int) < asked₀ + (target.height.toInt - start.height.toInt) := by
  obtain ⟨hadj, -⟩ := verify_cantBeTrusted hverify
  have hlt := h.above block (h.block_mem hblock)
  have hmax := toInt_lt block.height
  have hmin := le_toInt s.verifiedBlock.height
  have hgap : s.verifiedBlock.height.toInt + 1 < block.height.toInt := by
    by_contra hge
    refine hadj (toInt_inj.1 ?_)
    rw [toInt_add]
    show block.height.toInt = (s.verifiedBlock.height.toInt + 1).bmod (2 ^ 64)
    rw [Int.bmod_eq_of_le (by omega) (by omega)]
    omega
  have hcount := length_le_of_decreasing (v := s.verifiedBlock.height.toInt + 1) h.decreasing
    fun b hb => Int.lt_of_lt_of_le hgap (h.last_lowest hblock hlen b hb)
  have hasked := h.asked
  push_cast
  omega

/-- A block from the source extends the cache, unless it is not above the verified block. -/
theorem fetched {interim : LightBlock} (hstart : 0 ≤ start.height.toInt)
    (hinterim : interim.height = pivotHeight s.verifiedBlock.height block.height)
    (hhigh : s.verifiedBlock.height.toInt < interim.height.toInt) :
    SkipInv cfg now start target asked₀
      ⟨s.blockCache ++ [interim, interim], s.depth + 1, s.verifiedBlock, s.trace, s.asked + 1⟩
      (pivots ++ [interim]) := by
  have hlt := h.above block (h.block_mem hblock)
  have hnonneg := h.start_le
  have hbelow : interim.height.toInt < block.height.toInt := by
    rw [hinterim]
    exact pivotHeight_lt (by omega) hlt
  have hasked := h.asked
  have hcount : s.depth + 1 = 2 * pivots.length + 1 := by rw [hlen, h.cache, length_cacheOf]
  constructor
  case cache =>
    show s.blockCache ++ _ = _
    rw [h.cache, cacheOf_append]
  case depth_le =>
    show s.depth + 1 ≤ _
    rw [length_append, length_singleton]
    omega
  case decreasing =>
    rw [← cons_append, pairwise_append]
    refine ⟨h.decreasing, pairwise_singleton _ _, fun b hb c hc => ?_⟩
    obtain rfl := mem_singleton.1 hc
    exact Int.lt_of_lt_of_le hbelow (h.last_lowest hblock hlen b hb)
  case above =>
    intro b hb
    rw [← cons_append, mem_append, mem_singleton] at hb
    rcases hb with hb | rfl
    · exact h.above b hb
    · exact hhigh
  case start_le => exact h.start_le
  case failed =>
    intro j b hj
    have hj' : s.depth + 1 = 2 * j + 2 := hj
    omega
  case asked =>
    show ((s.asked + 1 : Nat) : Int) ≤ _
    rw [length_append, length_singleton]
    push_cast
    show _ ≤ asked₀ + (s.verifiedBlock.height.toInt - start.height.toInt) + _
    omega

end SkipInv

theorem Doomed.returns (cfg : Config) (source : Source) (now : Time) {s : SkipState}
    (h : Doomed start target asked₀ s) :
    ∃ e, skipStep cfg source now target s = .inr (.error e, s.asked) := by
  obtain ⟨b, hb, hle⟩ := h.low
  have hnot : ¬ NewHeader cfg s.verifiedBlock b now := fun hnew =>
    absurd (lt_iff_toInt_lt.1 hnew.height_lt) (by omega)
  have hok {block : LightBlock} (hblock : s.blockCache[s.depth]? = some block)
      (hv : verify cfg s.verifiedBlock block now = .ok ()) : False := by
    obtain rfl := some.inj (hb.symm.trans hblock)
    exact hnot (verify_eq_ok hv).newHeader
  have hcant {block : LightBlock} {got needed : Int} (hblock : s.blockCache[s.depth]? = some block)
      (hv : verify cfg s.verifiedBlock block now = .error (.newValSetCantBeTrusted got needed)) :
      False := by
    obtain rfl := some.inj (hb.symm.trans hblock)
    exact hnot (verify_cantBeTrusted hv).2
  have hcase := skipStep_case cfg source now target s
  generalize skipStep cfg source now target s = out at hcase ⊢
  cases hcase with
  | outOfRange hblock e => exact ⟨e, rfl⟩
  | rejected block hblock e => exact ⟨e, rfl⟩
  | finished block hblock hv => exact (hok hblock hv).elim
  | advance block hblock hv => exact (hok hblock hv).elim
  | deeper block hblock got needed hv => exact (hcant hblock hv).elim
  | fetched block hblock got needed hv => exact (hcant hblock hv).elim
  | unanswered block hblock got needed hv => exact (hcant hblock hv).elim

def Reached (cfg : Config) (now : Time) (start target : LightBlock) (asked₀ : Nat)
    (s : SkipState) : Prop :=
  (∃ pivots, SkipInv cfg now start target asked₀ s pivots) ∨ Doomed start target asked₀ s

theorem Reached.asked_lt {s : SkipState} (h : Reached cfg now start target asked₀ s) :
    (s.asked : Int) < asked₀ + (target.height.toInt - start.height.toInt) := by
  rcases h with ⟨pivots, h⟩ | h
  · exact h.asked_lt
  · exact h.asked

section Honest
variable (hsource : ∀ n height b, source n height = .ok b → b.height = height)
    (hstart : 0 ≤ start.height.toInt)
include hsource hstart

theorem Reached.next {s s' : SkipState} (h : Reached cfg now start target asked₀ s)
    (hstep : skipStep cfg source now target s = .inl s') : Reached cfg now start target asked₀ s' ∧
      skipMeasure start target s' < skipMeasure start target s := by
  rcases h with ⟨pivots, h⟩ | h
  · have hcase := skipStep_case cfg source now target s
    rw [hstep] at hcase
    cases hcase with
    | advance block hblock hv hd =>
      obtain ⟨j, hj, hblockj⟩ := h.advance_index hblock hv hd
      have hnew := h.advanced hblockj (s.trace ++ [block])
      rw [hj]
      constructor
      · exact Or.inl ⟨_, hnew⟩
      · exact h.measure_advance (h.above block (h.block_mem hblock)) hnew.verified_lt
    | deeper block hblock got needed hv hlen =>
      constructor
      · exact Or.inl ⟨pivots, h.deepened hblock (by simp [hv]) hlen⟩
      · exact h.measure_deeper rfl rfl
    | fetched block hblock got needed hv hlen interim hs =>
      have hheight := hsource _ _ _ hs
      constructor
      · by_cases hhigh : s.verifiedBlock.height.toInt < interim.height.toInt
        · exact Or.inl ⟨_, h.fetched hblock hlen hstart hheight hhigh⟩
        · refine Or.inr ⟨⟨interim, ?_, by simpa using hhigh⟩, h.asked_succ_lt hblock hlen hv⟩
          show (s.blockCache ++ [interim, interim])[s.depth + 1]? = _
          rw [hlen, getElem?_append_right (Nat.le_refl _), Nat.sub_self]
          rfl
      · exact h.measure_deeper rfl rfl
  · obtain ⟨e, he⟩ := h.returns cfg source now
    rw [he] at hstep
    cases hstep

end Honest

theorem Reached.returned {s : SkipState} {r : Except ClientError (List LightBlock) × Nat}
    (h : Reached cfg now start target asked₀ s)
    (hstep : skipStep cfg source now target s = .inr r) :
    (r.2 : Int) < asked₀ + (target.height.toInt - start.height.toInt) := by
  have hasked := h.asked_lt
  have hcase := skipStep_case cfg source now target s
  rw [hstep] at hcase
  cases hcase with
  | outOfRange => exact hasked
  | finished => exact hasked
  | rejected => exact hasked
  | unanswered block hblock got needed hv hlen =>
    rcases h with ⟨pivots, h⟩ | h
    · exact h.asked_succ_lt hblock hlen hv
    · obtain ⟨e', he⟩ := h.returns cfg source now
      have hnum : s.asked + 1 = s.asked := congrArg Prod.snd (Sum.inr.inj (hstep.symm.trans he))
      omega

theorem reached_skipStart (cfg : Config) (now : Time) (asked₀ : Nat)
    (hlt : start.height.toInt < target.height.toInt) :
    Reached cfg now start target asked₀ (skipStart target start asked₀) := by
  refine Or.inl ⟨[], rfl, le_refl 0, pairwise_singleton _ _, ?_, le_refl _, ?_, ?_⟩
  · intro b hb
    obtain rfl := mem_singleton.1 hb
    exact hlt
  · intro j b hj
    cases hj
  · show (asked₀ : Int) ≤ asked₀ + (start.height.toInt - start.height.toInt) + (0 : Nat)
    omega

end Termination

/-- A number of iterations after which `verifySkipping` has returned. -/
def skipBound (trustedBlock newLightBlock : LightBlock) : Nat :=
  let gap := (newLightBlock.height.toInt - trustedBlock.height.toInt).toNat
  gap * (2 * gap + 1) + 1

/-- Bisection ends after fewer requests than there are heights in between. A trace it returns leads
to the target, each block passing `Verify` against the one before it. -/
theorem verifySkipping_terminates (cfg : Config) (source : Source) (now : Time)
    (trustedBlock newLightBlock : LightBlock) (asked : Nat)
    (hsource : ∀ n height b, source n height = .ok b → b.height = height)
    (htrusted : 0 ≤ trustedBlock.height) (hlt : trustedBlock.height < newLightBlock.height) :
    ∃ result asked', (∀ fuel, skipBound trustedBlock newLightBlock ≤ fuel →
        verifySkipping cfg source now newLightBlock trustedBlock asked fuel =
          some (result, asked')) ∧
      (asked' : Int) - asked ≤ newLightBlock.height.toInt - trustedBlock.height.toInt - 1 ∧
      ∀ trace, result = .ok trace →
        trace.head? = some trustedBlock ∧ trace.getLast? = some newLightBlock ∧
          trace.Pairwise (fun a b => a.height < b.height) ∧
          trace.IsChain (fun a b => verify cfg a b now = .ok ()) := by
  have hstart : (0 : Int) ≤ trustedBlock.height.toInt := le_iff_toInt_le.1 htrusted
  have hlt' := lt_iff_toInt_lt.1 hlt
  have hreached := reached_skipStart cfg now asked hlt'
  have hmeasure : skipMeasure trustedBlock newLightBlock
      (skipStart newLightBlock trustedBlock asked) < skipBound trustedBlock newLightBlock :=
    lt_succ_of_le (sub_le _ _)
  obtain ⟨r, hr⟩ := Loop.run_returns (Reached cfg now trustedBlock newLightBlock asked)
    (skipMeasure trustedBlock newLightBlock)
    (fun s s' hs hstep => hs.next hsource hstart hstep) hreached hmeasure
  have hbound := Loop.run_post (Reached cfg now trustedBlock newLightBlock asked)
    (fun r => (r.2 : Int) < asked + (newLightBlock.height.toInt - trustedBlock.height.toInt))
    (fun s s' hs hstep => (hs.next hsource hstart hstep).1) (fun s r hs hstep => hs.returned hstep)
    hreached hr
  refine ⟨r.1, r.2, fun fuel hfuel => Loop.run_mono hr hfuel, by omega, ?_⟩
  intro trace htrace
  have hok : verifySkipping cfg source now newLightBlock trustedBlock asked
      (skipBound trustedBlock newLightBlock) = some (.ok trace, r.2) := by
    rw [← htrace]
    exact hr
  have hgood := verifySkipping_trace source hok
  exact ⟨hgood.head, hgood.last, hgood.chain.increasing, hgood.chain⟩

/-- Blocks of validator 1 below height 3, of validators 1 and 2 below height 6, then of validator
2. -/
def rotatedBlock (height : Int64) : LightBlock :=
  let v (b : UInt8) : Validator := ⟨.replicate 20 b, some ⟨.ed25519, .replicate 32 b⟩, 1, 0⟩
  let signers : List UInt8 := if height < 3 then [1] else if height < 6 then [1, 2] else [2]
  { exampleBlock height 1 with
    commit := { (exampleBlock height 1).commit with
      signatures := signers.map fun b => ⟨.commit, .replicate 20 b, height.toInt, [1]⟩ }
    validatorSet := ⟨signers.map v, (signers.map v).head?, false⟩ }

/-- Validator 1 has left at height 6, so the loop bisects over height 3. -/
theorem verifySkipping_terminates_bisecting :
    (∀ n height b, (fun (_ : Nat) h => .ok (rotatedBlock h) : Source) n height = .ok b →
        b.height = height) ∧
      ∃ asked', (∀ fuel, skipBound (rotatedBlock 1) (rotatedBlock 6) ≤ fuel →
        verifySkipping exampleConfig (fun _ h => .ok (rotatedBlock h)) 1000 (rotatedBlock 6)
          (rotatedBlock 1) 0 fuel =
            some (.ok [rotatedBlock 1, rotatedBlock 3, rotatedBlock 6], asked')) ∧
        0 < asked' ∧ (asked' : Int) ≤ 4 := by
  have hsource : ∀ n height b, (fun (_ : Nat) h => .ok (rotatedBlock h) : Source) n height =
      .ok b → b.height = height := by
    rintro n height b hb
    cases hb
    rfl
  obtain ⟨result, asked', hrun, hasked, -⟩ := verifySkipping_terminates exampleConfig
    (fun _ h => .ok (rotatedBlock h)) 1000 (rotatedBlock 1) (rotatedBlock 6) 0 hsource
    (by decide) (by decide)
  have hgap : (rotatedBlock 6).height.toInt - (rotatedBlock 1).height.toInt = 5 := by decide
  have hbisects : verifySkipping exampleConfig (fun _ h => .ok (rotatedBlock h)) 1000
    (rotatedBlock 6)
      (rotatedBlock 1) 0 (skipBound (rotatedBlock 1) (rotatedBlock 6)) =
        some (.ok [rotatedBlock 1, rotatedBlock 3, rotatedBlock 6], 1) := by decide +kernel
  obtain ⟨rfl, rfl⟩ := Prod.mk.inj (some.inj ((hrun _ le_rfl).symm.trans hbisects))
  exact ⟨hsource, 1, hrun, Nat.one_pos, by omega⟩

end CelestiaCore.Light
