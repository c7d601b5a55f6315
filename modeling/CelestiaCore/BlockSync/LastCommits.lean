import CelestiaCore.BlockSync.Reactor
import CelestiaCore.State.HeaderChain

/-!
# The last commits of synced blocks

An iteration verifies the last commit of the second block and the next one relies on it.
-/
namespace CelestiaCore.BlockSync
open Wire SM Keyed List Option

def SavedBlock.lastCommitCall (b : SavedBlock) : VerifyCall :=
  ⟨b.state.chainID, b.state.lastValidators.toValidatorSet, b.state.lastBlockID,
    b.block.header.height - 1, b.block.lastCommit⟩

def lastSaved : List Record → Option SavedBlock
  | [] => none
  | .saved b :: _ => some b
  | .verified _ :: log => lastSaved log

/-- What the log says about a block at the time it is saved. A first block of the chain has no last
commit. -/
structure Certified (cfg : Config) (b : SavedBlock) (log : List Record) : Prop where
  hash : b.blockID.hash = cfg.hs.header b.block.header
  parts : cfg.makePartSet b.block = some b.blockID.partSetHeader
  certified : .verified ⟨b.state.chainID, b.state.validators.toValidatorSet, b.blockID,
    b.block.header.height, b.seenCommit⟩ ∈ log
  lastCommit : b.block.header.height.toInt = b.state.initialHeight ∧
    b.block.lastCommit.signatures = [] ∨
    .verified b.lastCommitCall ∈ log
  previous : ∀ b', lastSaved log = some b' →
    b.state.lastBlockID = b'.blockID ∧ b.state.lastValidators = b'.state.validators

/-- Every call in the log was accepted, and every block was certified when it was saved. -/
def Justified (cfg : Config) : List Record → Prop
  | [] => True
  | .verified call :: log => call.run cfg.crypto = .ok () ∧ Justified cfg log
  | .saved b :: log => Certified cfg b log ∧ Justified cfg log

theorem Justified.run_eq_ok {cfg : Config} {log : List Record} {call : VerifyCall}
    (h : Justified cfg log) (hmem : .verified call ∈ log) : call.run cfg.crypto = .ok () := by
  induction log with
  | nil => cases hmem
  | cons r log ih =>
    rcases mem_cons.1 hmem with rfl | hrest
    · exact h.1
    · cases r with
      | verified => exact ih h.2 hrest
      | saved => exact ih h.2 hrest

namespace Reactor

/-- The requester of a block that was or is being relied on keeps the block. -/
def Steady (s : Reactor) : SyncEvent → Prop
  | .pool e => (0 < s.blocksSynced → s.pool.Steady s.pool.height e) ∧
      (s.peeked.isSome → s.pool.Steady (s.pool.height + 1) e)
  | _ => True

def SteadyRun (cfg : Config) : Reactor → List SyncEvent → Prop
  | _, [] => True
  | s, e :: events => s.Steady e ∧ SteadyRun cfg (s.step cfg e) events

instance (s : Reactor) : (e : SyncEvent) → Decidable (s.Steady e)
  | .pool _ => inferInstanceAs (Decidable (_ ∧ _))
  | .peek => .isTrue trivial
  | .process _ => .isTrue trivial
  | .stop => .isTrue trivial

instance decidableSteadyRun (cfg : Config) : (s : Reactor) → (events : List SyncEvent) →
    Decidable (SteadyRun cfg s events)
  | _, [] => .isTrue trivial
  | s, e :: events =>
    have := decidableSteadyRun cfg (s.step cfg e) events
    inferInstanceAs (Decidable (_ ∧ _))

/-- The last commit of the block was accepted for the block before. -/
def Vouched (s : Reactor) (block : FullBlock) : Prop := .verified (s.lastCommitCall block) ∈ s.log

structure PeekedSound (s : Reactor) (p : Peeked) : Prop where
  height : p.first.header.height = s.pool.height
  mem : s.pool.height ∈ s.pool.requesters
  first : 0 < s.blocksSynced → s.Vouched p.first
  second : ∃ r, s.pool.requesters.lookup (s.pool.height + 1) = some r ∧ r.block = some p.second

structure Going (s : Reactor) : Prop where
  chainID : s.chainID = s.state.chainID
  sorted : s.pool.Sorted
  last : ∀ b, lastSaved s.log = some b →
    s.state.lastBlockID = b.blockID ∧ s.state.lastValidators = b.state.validators
  next : 0 < s.blocksSynced →
    ∃ r block, s.pool.requesters.lookup s.pool.height = some r ∧ r.block = some block ∧
      s.Vouched block
  peeked : ∀ p, s.peeked = some p → s.PeekedSound p

variable {cfg : Config} {s : Reactor} {p : Peeked} {firstID : BlockID} {a : Answers}

theorem Going.pool {pool : Pool} (h : s.Going) (hmoves : s.pool.Moves pool)
    (hnext : 0 < s.blocksSynced → s.pool.Keeps pool s.pool.height)
    (hsecond : s.peeked.isSome → s.pool.Keeps pool (s.pool.height + 1)) :
    Going { s with pool } := by
  constructor
  case chainID => exact h.chainID
  case sorted => exact hmoves.sorted h.sorted
  case last => exact h.last
  case next =>
    intro hsynced
    obtain ⟨r, block, hr, hblock, hvouched⟩ := h.next hsynced
    obtain ⟨r', hr', hblock'⟩ := hnext hsynced r block hr hblock
    exact ⟨r', block, hmoves.height ▸ hr', hblock', hvouched⟩
  case peeked =>
    intro p hp
    have hsound := h.peeked p hp
    obtain ⟨r, hr, hblock⟩ := hsound.second
    constructor
    case height => exact hsound.height.trans hmoves.height.symm
    case mem => exact hmoves.height ▸ hmoves.mem _ hsound.mem
    case first => exact hsound.first
    case second =>
      have hkeeps := hsecond (isSome_of_mem hp) r p.second hr hblock
      exact hmoves.height ▸ hkeeps

theorem Going.poolStep (h : s.Going) {e : PoolEvent} (hsteady : s.Steady (.pool e)) :
    Going (s.step cfg (.pool e)) := by
  refine h.pool (Pool.step_moves _ _ _ e) (fun hsynced => ?_) (fun hpeeked => ?_)
  · obtain ⟨r, -, hr, -⟩ := h.next hsynced
    have hzero : s.pool.height + Int64.ofNat 0 = s.pool.height := Int64.add_zero _
    have hkeeps : s.pool.Keeps (s.pool.step cfg.crypto.toCrypto cfg.hs e)
        (s.pool.height + Int64.ofNat 0) :=
      Pool.step_keeps (hzero.symm ▸ hsteady.1 hsynced) (Table.length_pos (Table.mem_of_lookup hr))
    exact hzero ▸ hkeeps
  · obtain ⟨p, hp⟩ := isSome_iff_exists.1 hpeeked
    have hsound := h.peeked p hp
    obtain ⟨r, hr, -⟩ := hsound.second
    have hne : s.pool.height ≠ s.pool.height + 1 := by simp
    exact Pool.step_keeps (n := 1) (hsteady.2 hpeeked)
      (Table.two_le_length hsound.mem (Table.mem_of_lookup hr) hne)

theorem peek_cases (s : Reactor) :
    s.peek = s ∨ (∃ msg, s.peek = { s with status := .panicked msg }) ∨
      ∃ p r r', s.peek = { s with peeked := some p } ∧
        s.pool.requesters.lookup s.pool.height = some r ∧ r.block = some p.first ∧
        s.pool.requesters.lookup (s.pool.height + 1) = some r' ∧ r'.block = some p.second := by
  unfold peek
  split
  · next first second extCommit hpeek =>
    simp only [Pool.peekTwoBlocks, Prod.mk.injEq] at hpeek
    obtain ⟨r, hr, hfirst⟩ := bind_eq_some_iff.1 hpeek.1
    obtain ⟨r', hr', hsecond⟩ := bind_eq_some_iff.1 hpeek.2.1
    split_ifs
    · exact .inr (.inl ⟨_, rfl⟩)
    · exact .inr (.inl ⟨_, rfl⟩)
    · exact .inr (.inr ⟨⟨first, second, extCommit⟩, r, r', rfl, hr, hfirst, hr', hsecond⟩)
  · exact .inl rfl

theorem Going.peek (h : s.Going) (hrunning : s.peek.status = .running) : Going s.peek := by
  rcases peek_cases s with heq | ⟨msg, heq⟩ | ⟨p, r, r', heq, hr, hfirst, hr', hsecond⟩
  · rw [heq]
    exact h
  · rw [heq] at hrunning
    cases hrunning
  rw [heq]
  refine ⟨h.chainID, h.sorted, h.last, h.next, fun p' hp' => ?_⟩
  cases hp'
  refine ⟨h.sorted _ r p.first hr hfirst, Table.mem_of_lookup hr, fun hsynced => ?_, r',
    hr', hsecond⟩
  -- The block is the one that the iteration before has left.
  obtain ⟨r₀, block, hr₀, hblock, hvouched⟩ := h.next hsynced
  obtain rfl := some.inj (hr.symm.trans hr₀)
  obtain rfl := some.inj (hfirst.symm.trans hblock)
  exact hvouched

theorem verifyFirst_eq_ok (h : s.verifyFirst cfg p firstID a = .ok ()) :
    (s.certifyCall p firstID).run cfg.crypto = .ok () ∧
      validateBlock cfg.crypto cfg.hs s.state p.first (s.blocksSynced ≠ 0) a.now = .ok () := by
  simp only [verifyFirst, except_bind_eq_ok, mapError_eq_ok] at h
  obtain ⟨_, hcertify, _, hblock, -⟩ := h
  exact ⟨hcertify, hblock⟩

theorem validate_eq_ok (h : s.validate cfg p firstID a = .ok ()) :
    s.verifyFirst cfg p firstID a = .ok () ∧ s.checkExtCommit cfg p firstID = .ok () := by
  simp only [validate] at h
  split at h
  · cases h
  · cases h
  · split_ifs at h
    split at h
    · cases h
    · next herr => exact ⟨herr, h⟩

theorem checkExtCommit_run {extCommit : ExtendedCommit}
    (h : s.checkExtCommit cfg p firstID = .ok ())
    (hext : p.extCommit = some extCommit) :
    (s.extendedCall p firstID extCommit).run cfg.crypto = .ok () := by
  simp only [checkExtCommit, hext, except_bind_eq_ok] at h
  obtain ⟨_, -, hrun⟩ := h
  exact hrun

variable {block : FullBlock}

theorem validateLastCommit_of_ok {state : State} {skip : Bool} {now : Time}
    (h : validateBlock cfg.crypto cfg.hs state block skip now = .ok ()) :
    validateLastCommit cfg.crypto state block skip = .ok () := by
  simp only [validateBlock, check_bind_eq_ok] at h
  obtain ⟨-, -, -, -, -, -, -, -, -, -, -, h, -⟩ := h
  exact h

theorem lastCommitCall_run (h : validateLastCommit cfg.crypto s.state block false = .ok ())
    (hheight : block.header.height.toInt ≠ s.state.initialHeight) :
    (s.lastCommitCall block).run cfg.crypto = .ok () := by
  rw [validateLastCommit, if_neg hheight, if_neg Bool.false_ne_true, mapError_eq_ok] at h
  exact h

theorem signatures_of_initial {skip : Bool}
    (h : validateLastCommit cfg.crypto s.state block skip = .ok ())
    (hheight : block.header.height.toInt = s.state.initialHeight) :
    block.lastCommit.signatures = [] := by
  rw [validateLastCommit, if_pos hheight, reject_eq_ok, not_not, length_eq_zero_iff] at h
  exact h

theorem lastSaved_append (calls : List VerifyCall) (log : List Record) :
    lastSaved (calls.map .verified ++ log) = lastSaved log := by
  induction calls with
  | nil => rfl
  | cons call calls ih => exact ih

theorem justified_append {log : List Record} {calls : List VerifyCall}
    (hcalls : ∀ call ∈ calls, call.run cfg.crypto = .ok ()) (hlog : Justified cfg log) :
    Justified cfg (calls.map .verified ++ log) := by
  induction calls with
  | nil => exact hlog
  | cons call calls ih =>
    exact ⟨hcalls call (mem_cons_self ..), ih fun c hc => hcalls c (mem_cons_of_mem _ hc)⟩

theorem acceptedCalls_run (cfg : Config) (s : Reactor) (p : Peeked) (firstID : BlockID)
    (a : Answers) :
    ∀ call ∈ s.acceptedCalls cfg p firstID a, call.run cfg.crypto = .ok () := by
  intro call hcall
  unfold acceptedCalls at hcall
  split_ifs at hcall with hcertify hvalid hfirst
  · cases hcall
  · rw [mem_singleton.1 hcall]
    exact not_not.1 hcertify
  all_goals
    obtain ⟨hverify, hext⟩ := validate_eq_ok (not_not.1 hvalid)
    have hblock := validateLastCommit_of_ok (verifyFirst_eq_ok hverify).2
    simp only [mem_append, mem_toList, map_eq_some_iff,
      mem_singleton, not_mem_nil, or_false] at hcall
  · rcases hcall with (⟨extCommit, hsome, rfl⟩ | rfl) | rfl
    · exact checkExtCommit_run hext hsome
    · simp only [hfirst.1, ne_eq, not_true_eq_false, decide_false] at hblock
      exact lastCommitCall_run hblock hfirst.2
    · exact not_not.1 hcertify
  · rcases hcall with ⟨extCommit, hsome, rfl⟩ | rfl
    · exact checkExtCommit_run hext hsome
    · exact not_not.1 hcertify

/-- The block may be saved under its identifier. -/
structure Ready (cfg : Config) (s : Reactor) (p : Peeked) (firstID : BlockID) : Prop where
  hash : firstID.hash = cfg.hs.header p.first.header
  parts : cfg.makePartSet p.first = some firstID.partSetHeader
  certified : .verified (s.certifyCall p firstID) ∈ s.log
  lastCommit : p.first.header.height.toInt = s.state.initialHeight ∧
    p.first.lastCommit.signatures = [] ∨
    s.Vouched p.first

def logged (s : Reactor) (calls : List VerifyCall) : Reactor :=
  { s with peeked := none, log := calls.map .verified ++ s.log }

theorem Vouched.logged (h : s.Vouched block) (calls : List VerifyCall) :
    (s.logged calls).Vouched block :=
  mem_append_right _ h

theorem PeekedSound.logged (h : s.PeekedSound p) (calls : List VerifyCall) :
    (s.logged calls).PeekedSound p :=
  ⟨h.height, h.mem, fun hsynced => (h.first hsynced).logged calls, h.second⟩

theorem Going.logged (h : s.Going) (calls : List VerifyCall) : Going (s.logged calls) := by
  constructor
  case chainID => exact h.chainID
  case sorted => exact h.sorted
  case last =>
    intro b hb
    exact h.last b ((lastSaved_append calls s.log).symm.trans hb)
  case next =>
    intro hsynced
    obtain ⟨r, block, hr, hblock, hvouched⟩ := h.next hsynced
    exact ⟨r, block, hr, hblock, hvouched.logged calls⟩
  case peeked =>
    intro p hp
    cases hp

theorem ready_of_validate {firstPartSetHeader : PartSetHeader} (hp : s.PeekedSound p)
    (hparts : cfg.makePartSet p.first = some firstPartSetHeader)
    (h : s.validate cfg p ⟨cfg.hs.header p.first.header, firstPartSetHeader⟩ a = .ok ()) :
    Ready cfg (s.logged
      (s.acceptedCalls cfg p ⟨cfg.hs.header p.first.header, firstPartSetHeader⟩ a)) p
      ⟨cfg.hs.header p.first.header, firstPartSetHeader⟩ := by
  obtain ⟨hverify, -⟩ := validate_eq_ok h
  obtain ⟨hcertify, hblock⟩ := verifyFirst_eq_ok hverify
  have hlast := validateLastCommit_of_ok hblock
  constructor
  case hash => rfl
  case parts => exact hparts
  case certified =>
    refine mem_append_left _ (mem_map_of_mem ?_)
    rw [acceptedCalls, if_neg (not_not.2 hcertify), if_neg (not_not.2 h)]
    exact mem_append_right _ (mem_singleton_self _)
  case lastCommit =>
    by_cases hheight : p.first.header.height.toInt = s.state.initialHeight
    · exact .inl ⟨hheight, signatures_of_initial hlast hheight⟩
    refine .inr ?_
    rcases Nat.eq_zero_or_pos s.blocksSynced with hzero | hsynced
    · refine mem_append_left _ (mem_map_of_mem ?_)
      rw [acceptedCalls, if_neg (not_not.2 hcertify), if_neg (not_not.2 h), if_pos ⟨hzero, hheight⟩]
      exact mem_append_left _ (mem_append_right _ (mem_singleton_self _))
    · exact (hp.first hsynced).logged _

theorem stateAfter_links {crypto : BatchCrypto} {state state' : State} {d : Decided}
    {response : FinalizeResponse} (h : stateAfter crypto state d response = .ok state') :
    state'.chainID = state.chainID ∧ state'.lastBlockID = d.blockID ∧
      state'.lastValidators = state.validators := by
  simp only [stateAfter, except_bind_eq_ok, mapError_eq_ok, updateState] at h
  obtain ⟨-, -, updates, -, state₁, ⟨vals, -, params, -, hstate⟩, hfinal⟩ := h
  cases hstate
  cases hfinal
  exact ⟨rfl, rfl, rfl⟩

/-- The log is justified and the loop, while it runs, is where it should be. -/
structure Sound (cfg : Config) (s : Reactor) : Prop where
  log : Justified cfg s.log
  going : s.status = .running → s.Going

theorem Going.redo (h : s.Going) : Going (s.redo p) := by
  have hfirst := Pool.removePeerAndRedo_moves s.pool p.first.header.height
  have hsecond := Pool.removePeerAndRedo_moves
    (s.pool.removePeerAndRedoAllPeerRequests p.first.header.height) p.second.header.height
  have hmid : Going
    { s with pool := s.pool.removePeerAndRedoAllPeerRequests p.first.header.height } :=
    h.pool hfirst.1 (fun _ => hfirst.2 _) (fun _ => hfirst.2 _)
  exact hmid.pool hsecond.1 (fun _ => hsecond.2 _) (fun _ => hsecond.2 _)

theorem Ready.certifiedBlock (hready : Ready cfg s p firstID) (h : s.Going) :
    Certified cfg ⟨s.state, p.first, firstID, p.second.lastCommit⟩ s.log := by
  constructor
  case hash => exact hready.hash
  case parts => exact hready.parts
  case certified =>
    have hcall := hready.certified
    rw [certifyCall, h.chainID] at hcall
    exact hcall
  case lastCommit => exact hready.lastCommit
  case previous => exact h.last

theorem Sound.apply (h : s.Sound cfg) (hgoing : s.Going) (hnone : s.peeked = none)
    (hp : s.PeekedSound p) (hready : Ready cfg s p firstID) (response : FinalizeResponse) :
    Sound cfg (s.apply cfg p firstID response) := by
  have hlog : Justified cfg (.saved ⟨s.state, p.first, firstID, p.second.lastCommit⟩ :: s.log) :=
    ⟨hready.certifiedBlock hgoing, h.log⟩
  unfold Reactor.apply
  cases hpop : s.pool.popRequest with
  | none => exact ⟨h.log, nofun⟩
  | some pool =>
    dsimp only
    cases hstate : stateAfter cfg.crypto s.state ⟨p.first, firstID⟩ response with
    | error err => exact ⟨hlog, nofun⟩
    | ok state =>
      refine ⟨hlog, fun _ => ?_⟩
      obtain ⟨hchain, hid, hvals⟩ := stateAfter_links hstate
      obtain ⟨r, hr, hsecond⟩ := hp.second
      obtain ⟨r₀, hr₀, rfl⟩ := map_eq_some_iff.1 hpop
      constructor
      case chainID => exact hgoing.chainID.trans hchain.symm
      case sorted =>
        intro k r' block hr' hblock
        rw [Table.lookup_erase_eq] at hr'
        split_ifs at hr'
        exact hgoing.sorted k r' block hr' hblock
      case last =>
        intro b hb
        cases hb
        exact ⟨hid, hvals⟩
      case next =>
        intro _
        refine ⟨r, p.second, ?_, hsecond, ?_⟩
        · rw [Table.lookup_erase_eq, if_neg]
          · exact hr
          · simp
        · -- The call for this block is the call for the last commit of the next one.
          have hheight : p.second.header.height - 1 = p.first.header.height := by
            rw [hgoing.sorted _ r p.second hr hsecond, hp.height, Int64.add_sub_cancel]
          have hcall := hready.certified
          rw [certifyCall, hgoing.chainID] at hcall
          rw [Vouched, lastCommitCall, hheight, hchain, hid, hvals]
          exact mem_cons_of_mem _ hcall
      case peeked =>
        intro p' hp'
        rw [hnone] at hp'
        cases hp'

theorem Sound.process (h : s.Sound cfg) (hrunning : s.status = .running)
    (hpeeked : s.peeked = some p)
    (a : Answers) : Sound cfg (s.process cfg p a) := by
  have hgoing := h.going hrunning
  have hp := hgoing.peeked p hpeeked
  unfold Reactor.process
  cases hparts : cfg.makePartSet p.first with
  | none => exact ⟨h.log, nofun⟩
  | some firstPartSetHeader =>
    dsimp only
    have hlog := justified_append (acceptedCalls_run cfg s p
      ⟨cfg.hs.header p.first.header, firstPartSetHeader⟩ a) h.log
    split
    · exact ⟨hlog, nofun⟩
    · exact ⟨hlog, fun _ => (hgoing.logged _).redo⟩
    · next hvalid =>
      exact Sound.apply ⟨hlog, fun _ => hgoing.logged _⟩ (hgoing.logged _) rfl (hp.logged _)
        (ready_of_validate hp hparts hvalid) a.response

theorem Sound.step (h : s.Sound cfg) {e : SyncEvent} (hsteady : s.Steady e) :
    Sound cfg (s.step cfg e) := by
  cases e with
  | pool => exact ⟨h.log, fun hrunning => (h.going hrunning).poolStep hsteady⟩
  | peek =>
    simp only [Reactor.step]
    split_ifs with hready
    · refine ⟨?_, (h.going hready.1).peek⟩
      rcases peek_cases s with heq | ⟨msg, heq⟩ | ⟨p, -, -, heq, -⟩
      all_goals
        rw [heq]
        exact h.log
    · exact h
  | process a =>
    simp only [Reactor.step]
    cases hpeeked : s.peeked with
    | none => exact h
    | some p =>
      dsimp only
      split_ifs with hrunning
      · exact h.process hrunning hpeeked a
      · exact h
  | stop =>
    refine ⟨h.log, fun hrun => ?_⟩
    simp only [Reactor.step] at hrun
    split_ifs at hrun with hrunning
    exact absurd hrun hrunning

theorem newReactor_sound (cfg : Config) (start : Int64) (state : State) :
    Sound cfg (newReactor start state) := by
  refine ⟨trivial, fun _ => ?_⟩
  constructor
  case chainID => rfl
  case sorted =>
    intro k r block hr
    cases hr
  case last =>
    intro b hb
    cases hb
  case next => exact fun hsynced => absurd hsynced (lt_irrefl 0)
  case peeked =>
    intro p hp
    cases hp

theorem Sound.run {events : List SyncEvent} (h : s.Sound cfg) (hsteady : SteadyRun cfg s events) :
    Sound cfg (s.run cfg events) := by
  induction events generalizing s with
  | nil => exact h
  | cons e events ih => exact ih (h.step hsteady.1) hsteady.2

/-- If no requester drops a block that is relied on, each block that is saved was certified by the
commit in the next one, and its own last commit was accepted for the block before. -/
theorem saved_blocks_certified (cfg : Config) (start : Int64) (state : State)
    (events : List SyncEvent)
    (hsteady : SteadyRun cfg (newReactor start state) events) :
    Justified cfg ((newReactor start state).run cfg events).log :=
  ((newReactor_sound cfg start state).run hsteady).log

def byCommit : BlockHashes :=
  { constantHashes with
    commit := fun c =>
      List.replicate 31 7 ++ [UInt8.ofNat (16 * c.height.toInt + c.round.toInt).toNat]
    header := fun h => List.replicate 31 9 ++ [h.lastCommitHash.getLastD 0] }

def syncConfig : Config :=
  ⟨acceptingCrypto.toBatchCrypto, byCommit, fun b => some ⟨1, byCommit.header b.header⟩, true⟩

def blockWith (height : Int64) (time : Time) (lastBlockID : BlockID) (lastCommit : Commit) :
    FullBlock :=
  ⟨⟨{ headerAt height time lastBlockID with lastCommitHash := byCommit.commit lastCommit }, [],
    lastCommit⟩, [], none⟩

def idOf (block : FullBlock) : BlockID :=
  ⟨byCommit.header block.header, ⟨1, byCommit.header block.header⟩⟩

def synced5 : FullBlock := blockWith 5 0 default ⟨0, 0, default, []⟩

def synced6 : FullBlock := blockWith 6 10 (idOf synced5) ⟨5, 0, idOf synced5, [voteOf 1, voteOf 2]⟩

/-- A block 6 with a commit that only the smaller validator has signed. -/
def forged6 : FullBlock := blockWith 6 10 (idOf synced5) ⟨5, 1, idOf synced5, [.absent, voteOf 2]⟩

def after6 (block : FullBlock) : FullBlock :=
  blockWith 7 10 (idOf block) ⟨6, 0, idOf block, [voteOf 1, voteOf 2]⟩

def answers : Answers := ⟨100, .ok (), some true, ⟨⟨[], none, [], [], .zero⟩, []⟩⟩

def first5 : List SyncEvent :=
  [.pool .makeNextRequester, .pool .makeNextRequester, .pool .makeNextRequester,
    .pool (.pickPeer 5 "p"), .pool (.pickPeer 6 "p"), .pool (.addBlock "p" synced5 none false),
    .pool (.addBlock "p" synced6 none false), .pool (.gotBlock 6), .peek, .process answers]

def then6 (block : FullBlock) : List SyncEvent :=
  [.pool (.pickPeer 7 "q"), .pool (.addBlock "q" (after6 block) none false), .peek,
    .process answers]

def replace6 : List SyncEvent :=
  [.pool (.removePeer "p"), .pool (.handleRedo 6), .pool (.pickPeer 6 "q"),
    .pool (.addBlock "q" forged6 none false)]

def savedForged6 : SavedBlock :=
  ⟨((newReactor 5 stateBefore5).run syncConfig first5).state, forged6, idOf forged6,
    (after6 forged6).lastCommit⟩

theorem saved_blocks_certified_two :
    ((newReactor 5 stateBefore5).run syncConfig (first5 ++ then6 synced6)).blocksSynced = 2 ∧
      Justified syncConfig ((newReactor 5 stateBefore5).run syncConfig
        (first5 ++ then6 synced6)).log :=
  ⟨by decide +kernel, saved_blocks_certified syncConfig 5 stateBefore5 _ (by decide +kernel)⟩

/-- A block that takes the place of the one that was verified is applied with a commit that
`VerifyCommit` does not accept. -/
theorem replaced_block_unverified : ∃ b log, ((newReactor 5 stateBefore5).run syncConfig
      (first5 ++ replace6 ++ then6 forged6)).log =
        .saved b :: log ∧
      b.block = forged6 ∧ b.block.header.height.toInt ≠ b.state.initialHeight ∧
      b.lastCommitCall.run syncConfig.crypto = .error (.notEnoughVotingPowerSigned 3 8) ∧
      ¬Justified syncConfig
        ((newReactor 5 stateBefore5).run syncConfig (first5 ++ replace6 ++ then6 forged6)).log := by
  have hhead : ((newReactor 5 stateBefore5).run syncConfig
      (first5 ++ replace6 ++ then6 forged6)).log.head? = some (.saved savedForged6) := by
    decide +kernel
  obtain ⟨log, hlog⟩ := List.head?_eq_some_iff.1 hhead
  have hheight : savedForged6.block.header.height.toInt ≠ savedForged6.state.initialHeight := by
    decide +kernel
  have hrun : savedForged6.lastCommitCall.run syncConfig.crypto =
      .error (.notEnoughVotingPowerSigned 3 8) := by
    decide +kernel
  refine ⟨savedForged6, log, hlog, rfl, hheight, hrun, fun hjustified => ?_⟩
  rw [hlog] at hjustified
  rcases hjustified.1.lastCommit with ⟨hinitial, -⟩ | hmem
  · exact hheight hinitial
  · exact absurd (hrun.symm.trans (hjustified.2.run_eq_ok hmem)) (by simp)

end Reactor
end CelestiaCore.BlockSync
