import CelestiaCore.Program.Threads
import CelestiaCore.Wire.Field

/-!
# The evidence pool

`evidence/pool.go`: the evidence reactor and consensus work call by call on one database, and only
the buffer of conflicting votes is locked. What depends on other stores is an answer to a call. -/
namespace CelestiaCore.EvidencePool
open Wire Program

/-- A piece of evidence as the pool tells it apart. -/
structure Item where
  height : Int64
  hash : Bytes
  isLight : Bool
  deriving DecidableEq, Repr

/-- The key under the prefix for pending or committed evidence: `bE(height)/hash`. -/
def Item.key (ev : Item) : Int64 × Bytes := (ev.height, ev.hash)

/-- Two conflicting votes in the buffer. -/
structure VotePair where
  voteA : Bytes
  voteB : Bytes
  deriving DecidableEq, Repr

structure Pool where
  pending : List Item
  committed : List (Int64 × Bytes)
  evidenceSize : UInt32
  consensusBuffer : List VotePair
  locked : Bool
  deriving DecidableEq, Repr

inductive Call where
  | isPending (ev : Item)
  | isCommitted (ev : Item)
  | verify (ev : Item)
  | addPendingEvidence (ev : Item)
  | removePendingEvidence (ev : Item)
  | setCommitted (ev : Item)
  | lock
  | unlock
  | appendBuffer (votes : VotePair)
  | readBuffer
  | resetBuffer
  | formEvidence (votes : VotePair)
  | pruneDue
  | listPending
  | isExpired (ev : Item)
  deriving DecidableEq, Repr

/-- An error is a text; nil is `none`. -/
abbrev Call.Answer : Call → Type
  | .isPending _ => Bool
  | .isCommitted _ => Bool
  | .verify _ => Option String
  | .addPendingEvidence _ => Option String
  | .removePendingEvidence _ => Unit
  | .setCommitted _ => Unit
  | .lock => Unit
  | .unlock => Unit
  | .appendBuffer _ => Unit
  | .readBuffer => List VotePair
  | .resetBuffer => Unit
  | .formEvidence _ => Option Item
  | .pruneDue => Bool
  | .listPending => List Item
  | .isExpired _ => Bool

namespace Pool

def hasPending (p : Pool) (key : Int64 × Bytes) : Bool := p.pending.any (·.key = key)

def before (a b : Item) : Prop := a.height < b.height ∨ a.height = b.height ∧ a.hash ≤ b.hash

instance : DecidableRel before := fun a b =>
  inferInstanceAs (Decidable (a.height < b.height ∨ a.height = b.height ∧ a.hash ≤ b.hash))

/-- `Set` under the pending key. -/
def setPending (p : Pool) (ev : Item) : Pool :=
  { p with
    pending := (p.pending.filter (·.key ≠ ev.key)).orderedInsert before ev
    evidenceSize := p.evidenceSize + 1 }

def deletePending (p : Pool) (ev : Item) : Pool :=
  { p with pending := p.pending.filter (·.key ≠ ev.key), evidenceSize := p.evidenceSize - 1 }

def handle : (e : Call) → Pool → e.Answer → Pool → Prop
  | .isPending ev, p, found, p' => p' = p ∧ found = p.hasPending ev.key
  | .isCommitted ev, p, found, p' => p' = p ∧ found = p.committed.contains ev.key
  | .verify _, p, _, p' => p' = p
  | .addPendingEvidence ev, p, none, p' => p' = p.setPending ev
  | .addPendingEvidence _, p, some _, p' => p' = p
  | .removePendingEvidence ev, p, _, p' => p' = p.deletePending ev
  | .setCommitted ev, p, _, p' => p' = { p with committed := ev.key :: p.committed }
  | .lock, p, _, p' => p.locked = false ∧ p' = { p with locked := true }
  | .unlock, p, _, p' => p' = { p with locked := false }
  | .appendBuffer votes, p, _, p' =>
    p' = { p with consensusBuffer := p.consensusBuffer ++ [votes] }
  | .readBuffer, p, votes, p' => p' = p ∧ votes = p.consensusBuffer
  | .resetBuffer, p, _, p' => p' = { p with consensusBuffer := [] }
  | .formEvidence _, p, _, p' => p' = p
  | .pruneDue, p, _, p' => p' = p
  | .listPending, p, evs, p' => p' = p ∧ evs = p.pending
  | .isExpired _, p, _, p' => p' = p

/-- `listEvidence` of pending evidence up to a size, which is that of the list in its encoding. -/
def listFit (listSize : List Item → Int) (maxBytes : Int) (taken : List Item) :
    List Item → List Item
  | [] => taken
  | ev :: rest =>
    if maxBytes ≠ -1 ∧ maxBytes < listSize (taken ++ [ev]) then taken
    else listFit listSize maxBytes (taken ++ [ev]) rest

def pendingEvidence (p : Pool) (listSize : List Item → Int) (maxBytes : Int) : List Item :=
  if p.evidenceSize = 0 then [] else listFit listSize maxBytes [] p.pending

end Pool

abbrev Work := Thread Call Call.Answer

section Programs
open Thread

abbrev isPending (ev : Item) : Work Bool := perform (Call.isPending ev)
abbrev isCommitted (ev : Item) : Work Bool := perform (Call.isCommitted ev)
abbrev verifyEvidence (ev : Item) : Work (Option String) := perform (Call.verify ev)
abbrev addPendingEvidence (ev : Item) : Work (Option String) :=
  perform (Call.addPendingEvidence ev)
abbrev removePendingEvidence (ev : Item) : Work Unit := perform (Call.removePendingEvidence ev)
abbrev setCommitted (ev : Item) : Work Unit := perform (Call.setCommitted ev)
abbrev lock : Work Unit := perform Call.lock
abbrev unlock : Work Unit := perform Call.unlock
abbrev appendBuffer (votes : VotePair) : Work Unit := perform (Call.appendBuffer votes)
abbrev readBuffer : Work (List VotePair) := perform Call.readBuffer
abbrev resetBuffer : Work Unit := perform Call.resetBuffer
abbrev formEvidence (votes : VotePair) : Work (Option Item) := perform (Call.formEvidence votes)
abbrev pruneDue : Work Bool := perform Call.pruneDue
abbrev listPending : Work (List Item) := perform Call.listPending
abbrev isExpired (ev : Item) : Work Bool := perform (Call.isExpired ev)

/-- `AddEvidence`, with the error that it returns. -/
def addEvidence (ev : Item) : Work (Option String) := do
  if ← isPending ev then pure none
  else if ← isCommitted ev then pure none
  else
    match ← verifyEvidence ev with
    | some err => pure (some err)
    | none =>
      match ← addPendingEvidence ev with
      | some err => pure (some s!"can't add evidence to pending list: {err}")
      | none => pure none

/-- The body of the `if` in `CheckEvidence`; an error of `addPendingEvidence` is only logged. -/
def examineEvidence (ev : Item) : Work (Option String) := do
  if ← isCommitted ev then pure (some "evidence was already committed")
  else
    match ← verifyEvidence ev with
    | some err => pure (some err)
    | none => do
      let _ ← addPendingEvidence ev
      pure none

/-- Pending evidence is known, but light client attack evidence is looked at again. -/
def knownEvidence (ev : Item) : Work Bool :=
  if ev.isLight then pure false else isPending ev

/-- The first `if` in the loop of `CheckEvidence`. -/
def checkUnknown (ev : Item) : Work (Option String) := do
  if ← knownEvidence ev then pure none else examineEvidence ev

/-- The loop of `CheckEvidence`, with the hashes seen so far. -/
def checkEvidenceFrom (hashes : List Bytes) : List Item → Work (Option String)
  | [] => pure none
  | ev :: rest => do
    match ← checkUnknown ev with
    | some err => pure (some err)
    | none =>
      if hashes.contains ev.hash then pure (some "duplicate evidence")
      else checkEvidenceFrom (ev.hash :: hashes) rest

def checkEvidence (evList : List Item) : Work (Option String) := checkEvidenceFrom [] evList

/-- The loop of `processConsensusBuffer` over the buffer. -/
def flushVotes : List VotePair → Work Unit
  | [] => pure ()
  | votes :: rest => do
    match ← formEvidence votes with
    | none => flushVotes rest
    | some dve =>
      if ← isPending dve then flushVotes rest
      else if ← isCommitted dve then flushVotes rest
      else do
        let _ ← addPendingEvidence dve
        flushVotes rest

def processConsensusBuffer : Work Unit := do
  lock
  let buffer ← readBuffer
  flushVotes buffer
  resetBuffer
  unlock

/-- The first `if` in the loop of `markEvidenceAsCommitted`. -/
def dropPending (ev : Item) : Work Unit := do
  if ← isPending ev then removePendingEvidence ev else pure ()

def markEvidenceAsCommitted : List Item → Work Unit
  | [] => pure ()
  | ev :: rest => do
    dropPending ev
    setCommitted ev
    markEvidenceAsCommitted rest

/-- The loop of `removeExpiredPendingEvidence`, which stops at evidence that has not expired. -/
def removeExpired : List Item → Work Unit
  | [] => pure ()
  | ev :: rest => do
    if ← isExpired ev then do
      removePendingEvidence ev
      removeExpired rest
    else pure ()

/-- `Update`, which returns no error. -/
def update (evList : List Item) : Work (Option String) := do
  processConsensusBuffer
  markEvidenceAsCommitted evList
  if ← pruneDue then do
    let evs ← listPending
    removeExpired evs
    pure none
  else pure none

def reportConflictingVotes (votes : VotePair) : Work (Option String) := do
  lock
  appendBuffer votes
  unlock
  pure none

/-- The threads that may start. -/
inductive Starts : Work (Option String) → Prop where
  | addEvidence (ev : Item) : Starts (addEvidence ev)
  | checkEvidence (evList : List Item) : Starts (checkEvidence evList)
  | update (evList : List Item) : Starts (update evList)
  | reportConflictingVotes (votes : VotePair) : Starts (reportConflictingVotes votes)

end Programs

end CelestiaCore.EvidencePool
