import CelestiaCore.BlockSync.Pool
import CelestiaCore.State.Execution

/-!
# Block sync

`poolRoutine` of `blocksync/reactor.go`. An iteration looks at two blocks and then works on them
while the pool goes on, so the two parts are steps of their own. The log of what was verified and
saved is kept for the statements; no step reads it. -/
namespace CelestiaCore.BlockSync
open Wire SM

structure VerifyCall where
  chainID : Bytes
  vals : ValidatorSet
  blockID : BlockID
  height : Int64
  commit : Commit
  deriving DecidableEq

def VerifyCall.run (crypto : BatchCrypto) (call : VerifyCall) : Except VerifyFailure Unit :=
  verifyCommit crypto call.chainID call.vals call.blockID call.height call.commit

/-- A block given to `SaveBlock` and `ApplyVerifiedBlock`, with the state it was checked against and
the commit it was saved with. -/
structure SavedBlock where
  state : State
  block : FullBlock
  blockID : BlockID
  seenCommit : Commit
  deriving DecidableEq

inductive Record where
  | verified (call : VerifyCall)
  | saved (saved : SavedBlock)
  deriving DecidableEq

structure Peeked where
  first : FullBlock
  second : FullBlock
  extCommit : Option ExtendedCommit

inductive Status where
  | running
  /-- The loop was left. -/
  | stopped
  | panicked (msg : String)
  deriving DecidableEq

structure Reactor where
  pool : Pool
  chainID : Bytes
  state : State
  blocksSynced : ℕ
  /-- The blocks of the iteration that is going on. -/
  peeked : Option Peeked
  status : Status
  log : List Record

structure Config where
  crypto : BatchCrypto
  hs : BlockHashes
  makePartSet : FullBlock → Option PartSetHeader
  verifyData : Bool

/-- What an iteration learns from outside. -/
structure Answers where
  now : Time
  checkEvidence : Except String Unit
  /-- `ProcessProposal`, with `none` for an unknown status. -/
  processProposal : Option Bool
  response : FinalizeResponse

namespace Reactor

/-- `poolRoutine` at its start. -/
def newReactor (start : Int64) (state : State) : Reactor :=
  ⟨.newBlockPool start, state.chainID, state, 0, none, .running, []⟩

section Iteration
variable (cfg : Config) (s : Reactor) (p : Peeked) (firstID : BlockID)

/-- The call for the first block with the commit in the second one. -/
def certifyCall : VerifyCall :=
  ⟨s.chainID, s.state.validators.toValidatorSet, firstID, p.first.header.height,
    p.second.lastCommit⟩

/-- The call in `validateBlock` for the commit in a block. -/
def lastCommitCall (block : FullBlock) : VerifyCall :=
  ⟨s.state.chainID, s.state.lastValidators.toValidatorSet, s.state.lastBlockID,
    block.header.height - 1, block.lastCommit⟩

def extendedCall (extCommit : ExtendedCommit) : VerifyCall :=
  ⟨s.chainID, s.state.validators.toValidatorSet, firstID, p.first.header.height, extCommit.toCommit⟩

/-- The checks before those of the extended commit. Only the first block of the session goes to
`ValidateBlock`, the others to `ValidateBlockSkipLastCommit`. -/
def verifyFirst (a : Answers) : Except VerifyFailure Unit := do
  (s.certifyCall p firstID).run cfg.crypto
  (validateBlock cfg.crypto cfg.hs s.state p.first (s.blocksSynced ≠ 0) a.now).mapError .err
  a.checkEvidence.mapError .err
  if cfg.verifyData then
    match a.processProposal with
    | none => .error (.panic "ProcessProposal responded with status UNKNOWN")
    | some accepted =>
      (reject (accepted = false)
        s!"application has rejected syncing block at height {p.first.header.height}").mapError .err
  else .ok ()

def checkExtCommit : Except VerifyFailure Unit :=
  match p.extCommit with
  | none => .ok ()
  | some extCommit => do
    (extCommit.ensureExtensions true).mapError .err
    (s.extendedCall p firstID extCommit).run cfg.crypto

/-- All checks of an iteration. The check for the presence of an extended commit takes the place of
an earlier error, but not of a panic. -/
def validate (a : Answers) : Except VerifyFailure Unit :=
  let abci : ABCIParams := ⟨Int64.ofInt s.state.consensusParams.voteExtensionsEnableHeight⟩
  match s.verifyFirst cfg p firstID a, abci.voteExtensionsEnabled p.first.header.height with
  | .error (.panic msg), _ => .error (.panic msg)
  | _, none => .error (.panic
      s!"cannot check if vote extensions enabled for height {p.first.header.height} (< 1)")
  | err, some extensionsEnabled =>
    if p.extCommit.isSome ≠ extensionsEnabled then
      .error (.err
        ("non-nil extended commit must be received iff vote extensions are enabled for " ++
        s!"its height (height {p.first.header.height})"))
    else
      match err with
      | .error failure => .error failure
      | .ok () => s.checkExtCommit cfg p firstID

/-- The calls of an iteration that were accepted. Of an iteration that fails, only its first call is
taken down. -/
def acceptedCalls (a : Answers) : List VerifyCall :=
  if (s.certifyCall p firstID).run cfg.crypto ≠ .ok () then []
  else if s.validate cfg p firstID a ≠ .ok () then [s.certifyCall p firstID]
  else
    (p.extCommit.map (s.extendedCall p firstID)).toList ++
      (if s.blocksSynced = 0 ∧ p.first.header.height.toInt ≠ s.state.initialHeight then
        [s.lastCommitCall p.first] else []) ++ [s.certifyCall p firstID]

def redo : Reactor :=
  { s with
    pool := (s.pool.removePeerAndRedoAllPeerRequests p.first.header.height)
      |>.removePeerAndRedoAllPeerRequests p.second.header.height }

/-- The rest of an iteration without an error: the block is popped, saved and applied. -/
def apply (response : FinalizeResponse) : Reactor :=
  match s.pool.popRequest with
  | none =>
    { s with status :=
      .panicked s!"Expected requester to pop, got nothing at height {s.pool.height}" }
  | some pool =>
    let log := .saved ⟨s.state, p.first, firstID, p.second.lastCommit⟩ :: s.log
    match stateAfter cfg.crypto s.state ⟨p.first, firstID⟩ response with
    | .error err =>
      { s with
        pool, log
        status := .panicked s!"Failed to process committed block ({p.first.header.height}): {err}" }
    | .ok state => { s with pool, log, state, blocksSynced := s.blocksSynced + 1 }

def process (a : Answers) : Reactor :=
  match cfg.makePartSet p.first with
  | none => { s with peeked := none, status := .stopped }
  | some firstPartSetHeader =>
    let firstID : BlockID := ⟨cfg.hs.header p.first.header, firstPartSetHeader⟩
    let log := (s.acceptedCalls cfg p firstID a).map .verified ++ s.log
    match s.validate cfg p firstID a with
    | .error (.panic msg) => { s with peeked := none, log, status := .panicked msg }
    | .error _ => { s with peeked := none, log }.redo p
    | .ok () => { s with peeked := none, log }.apply cfg p firstID a.response

end Iteration

def peek (s : Reactor) : Reactor :=
  match s.pool.peekTwoBlocks with
  | (some first, some second, extCommit) =>
    if 0 < s.state.lastBlockHeight ∧ s.state.lastBlockHeight + 1 ≠ first.header.height.toInt then
      { s with status := .panicked ("peeked first block has unexpected height; expected " ++
          s!"{s.state.lastBlockHeight + 1}, got {first.header.height}") }
    else if first.header.height + 1 ≠ second.header.height then
      { s with status := .panicked ("heights of first and second block are not consecutive; " ++
          s!"expected {s.state.lastBlockHeight}, got {first.header.height}") }
    else { s with peeked := some ⟨first, second, extCommit⟩ }
  | _ => s

end Reactor

inductive SyncEvent where
  | pool (e : PoolEvent)
  | peek
  | process (answers : Answers)
  /-- The loop is left: the node is caught up or quits. -/
  | stop

namespace Reactor

def step (cfg : Config) (s : Reactor) : SyncEvent → Reactor
  | .pool e => { s with pool := s.pool.step cfg.crypto.toCrypto cfg.hs e }
  | .peek => if s.status = .running ∧ s.peeked.isNone then s.peek else s
  | .process answers =>
    match s.peeked with
    | none => s
    | some p => if s.status = .running then s.process cfg p answers else s
  | .stop => { s with status := if s.status = .running then .stopped else s.status }

def run (cfg : Config) (s : Reactor) (events : List SyncEvent) : Reactor :=
  events.foldl (step cfg) s

end Reactor
end CelestiaCore.BlockSync
