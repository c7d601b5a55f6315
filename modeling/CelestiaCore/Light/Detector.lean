import CelestiaCore.Light.Skipping
import CelestiaCore.Program.SwapRemove
import CelestiaCore.Types.Evidence

/-!
# Detection of a divergence between the primary and the witnesses

`light/detector.go`: the verified header is compared with what each witness has at its height. The
replies come in any order.
-/
namespace CelestiaCore.Light
open Wire

/-- The block that a witness has at a height, or what it says in place of it. -/
inductive WitnessReply where
  | atTarget (block : LightBlock)
  | conflictingTime (block : LightBlock)
  | badWitness (reason : ProviderError)
  | failed (e : ProviderError)
  deriving DecidableEq, Repr

/-- What `compareNewLightBlockWithWitness` sends to the detector. -/
inductive Comparison where
  | headerMatched
  | conflictingHeaders (block : LightBlock)
  | badWitness (reason : ProviderError)
  | proposerPrioritiesDiverge (witnessHash primaryHash : Bytes)
  | failed (e : ProviderError)
  deriving DecidableEq, Repr

def ProviderError.isContextError : ProviderError → Bool
  | .canceled | .deadlineExceeded => true
  | _ => false

section Compare
variable (source : Source)

/-- `getTargetBlockOrLatest`, with the number of requests made after it. -/
def getTargetBlockOrLatest (height : Int64) (asked : Nat) :
    Except ProviderError (Bool × LightBlock) × Nat :=
  match source asked 0 with
  | .error e => (.error e, asked + 1)
  | .ok lightBlock =>
    if lightBlock.height = height then (.ok (true, lightBlock), asked + 1)
    else if height < lightBlock.height then
      match source (asked + 1) height with
      | .error e => (.error e, asked + 2)
      | .ok lightBlock => (.ok (true, lightBlock), asked + 2)
    else (.ok (false, lightBlock), asked + 1)

/-- The requests of `compareNewLightBlockWithWitness`. -/
def witnessReply (l : LightBlock) : WitnessReply × Nat :=
  match source 0 l.height with
  | .ok lightBlock => (.atTarget lightBlock, 1)
  | .error .heightTooHigh =>
    match getTargetBlockOrLatest source l.height 1 with
    | (.error e, n) => (.failed e, n)
    | (.ok (true, lightBlock), n) => (.atTarget lightBlock, n)
    | (.ok (false, lightBlock), n) =>
      if ¬lightBlock.time < l.time then (.conflictingTime lightBlock, n)
      else
        -- after waiting for twice the clock drift and the block lag
        match getTargetBlockOrLatest source l.height n with
        | (.error e, n) => if e.isContextError then (.failed e, n) else (.badWitness e, n)
        | (.ok (true, lightBlock), n) => (.atTarget lightBlock, n)
        | (.ok (false, lightBlock), n) =>
          if ¬lightBlock.time < l.time then (.conflictingTime lightBlock, n)
          else (.failed .noResponse, n)
  | .error .noResponse => (.failed .noResponse, 1)
  | .error .lightBlockNotFound => (.failed .lightBlockNotFound, 1)
  | .error .deadlineExceeded => (.failed .deadlineExceeded, 1)
  | .error .canceled => (.failed .canceled, 1)
  | .error e => (.badWitness e, 1)

def compareReply (hs : Hashes) (l : LightBlock) : WitnessReply → Comparison
  | .atTarget lightBlock =>
    if l.hash hs ≠ lightBlock.hash hs then .conflictingHeaders lightBlock
    else
      let wanted := hs.proposerPriority l.validatorSet
      let got := hs.proposerPriority lightBlock.validatorSet
      if wanted ≠ got then .proposerPrioritiesDiverge got wanted else .headerMatched
  | .conflictingTime lightBlock => .conflictingHeaders lightBlock
  | .badWitness e => .badWitness e
  | .failed e => .failed e

/-- What a witness sends, with the number of requests that it took. -/
def compareNewLightBlockWithWitness (hs : Hashes) (l : LightBlock) : Comparison × Nat :=
  let reply := witnessReply source l
  (compareReply hs l reply.1, reply.2)

end Compare

section Examine
variable (cfg : Config) (source : Source) (now : Time) (fuel : Nat) (targetBlock : LightBlock)

/-- The outcome of an examination: the trace of the source and the divergent block. -/
abbrev Examination := Except ClientError (List LightBlock × LightBlock) × Nat

/-- `verifySkipping` of a block of the source, as the examination uses it. -/
def verifySource (previouslyVerifiedBlock sourceBlock : LightBlock) (asked : Nat) :
    Option (Except ClientError (List LightBlock) × Nat) :=
  match verifySkipping cfg source now sourceBlock previouslyVerifiedBlock asked fuel with
  | some (.error (.panic msg), n) => some (.error (.panic msg), n)
  | some (.error e, n) =>
    some (.error (.wrapped "verifySkipping of conflicting header failed" e), n)
  | r => r

/-- The block of the source at the height of a block of the trace. -/
def sourceBlockAt (traceBlock : LightBlock) (asked : Nat) : Except ProviderError LightBlock × Nat :=
  if traceBlock.height = targetBlock.height then (.ok targetBlock, asked)
  else (source asked traceBlock.height, asked + 1)

def examineFrom : List LightBlock → LightBlock → List LightBlock → Nat → Option Examination
  | [], _, _, asked => some (.error (.other
      "sanity check failed: no divergence between the original trace and the provider's new trace"),
      asked)
  | traceBlock :: trace, previouslyVerifiedBlock, sourceTrace, asked =>
    if targetBlock.height < traceBlock.height then
      -- a forward lunatic attack
      if targetBlock.time < traceBlock.time then
        some (.error (.other
          "sanity check failed: expected traceblock to have a lesser time than the target block"),
          asked)
      else if previouslyVerifiedBlock.height ≠ targetBlock.height then
        match verifySource cfg source now fuel previouslyVerifiedBlock targetBlock asked with
        | none => none
        | some (.error e, n) => some (.error e, n)
        | some (.ok sourceTrace, n) => some (.ok (sourceTrace, traceBlock), n)
      else some (.ok (sourceTrace, traceBlock), asked)
    else
      match sourceBlockAt source targetBlock traceBlock asked with
      | (.error e, n) => some (.error (.wrapped "failed to examine trace" (.provider e)), n)
      | (.ok sourceBlock, n) =>
        match verifySource cfg source now fuel previouslyVerifiedBlock sourceBlock n with
        | none => none
        | some (.error e, n) => some (.error e, n)
        | some (.ok sourceTrace, n) =>
          if sourceBlock.hash cfg.hashes ≠ traceBlock.hash cfg.hashes then
            some (.ok (sourceTrace, traceBlock), n)
          else examineFrom trace sourceBlock sourceTrace n

def examineConflictingHeaderAgainstTrace (trace : List LightBlock) (asked : Nat) :
    Option Examination :=
  match trace with
  | [] => some (.error (.panic "index out of range"), asked)
  | first :: rest =>
    if targetBlock.height < first.height then
      some (.error (.other ("target block has a height lower than the trusted height " ++
        s!"({targetBlock.height} < {first.height})")),
        asked)
    else
      match sourceBlockAt source targetBlock first asked with
      | (.error e, n) => some (.error (.wrapped "failed to examine trace" (.provider e)), n)
      | (.ok sourceBlock, n) =>
        if sourceBlock.hash cfg.hashes ≠ first.hash cfg.hashes then
          some (.error (.other "trusted block is different to the source's first block"), n)
        else examineFrom cfg source now fuel targetBlock rest sourceBlock [] n

end Examine

/-- The block whose height, time and power the evidence states: the common one for a lunatic attack
and the trusted one otherwise. -/
def heldBlock (conflicted trusted common : LightBlock) : LightBlock :=
  if conflictingHeaderIsInvalid conflicted trusted.header then common else trusted

/-- `newLightClientAttackEvidence`, or how it panics. -/
def newLightClientAttackEvidence (conflicted trusted common : LightBlock) :
    Except String LightClientAttackEvidence := do
  let held := heldBlock conflicted trusted common
  let total ← held.validatorSet.totalVotingPower
  let validators ← getByzantineValidators conflicted common.validatorSet trusted.toSignedHeader
  .ok { conflictingBlock := conflicted, commonHeight := held.height, timestamp := held.time
        totalVotingPower := total, byzantineValidators := appended validators }

/-- The evidence that holds the blocks of a trace for the truth. -/
def evidenceAgainst (conflicted : LightBlock) (trace : List LightBlock) :
    Except String LightClientAttackEvidence :=
  match trace.head?, trace.getLast? with
  | some common, some trusted => newLightClientAttackEvidence conflicted trusted common
  | _, _ => .error "index out of range"

section Detect
variable (cfg : Config) (now : Time) (fuel : Nat) (primary : Source)
  (primaryTrace : List LightBlock)

/-- `handleConflictingHeaders`, with the evidence it has sent. The witness has answered `asked`
requests. -/
def handleConflictingHeaders (witness : Source) (challengingBlock : LightBlock) (asked : Nat) :
    Option (Except ClientError Unit × List LightClientAttackEvidence) :=
  match examineConflictingHeaderAgainstTrace cfg witness now fuel challengingBlock primaryTrace
      asked with
  | none => none
  | some (.error (.panic msg), _) => some (.error (.panic msg), [])
  | some (.error _, _) => some (.ok (), [])
  | some (.ok (witnessTrace, primaryBlock), _) =>
    match evidenceAgainst primaryBlock witnessTrace with
    | .error msg => some (.error (.panic msg), [])
    | .ok evidenceAgainstPrimary =>
      match examineConflictingHeaderAgainstTrace cfg primary now fuel primaryBlock witnessTrace
          0 with
      | none => none
      | some (.error (.panic msg), _) => some (.error (.panic msg), [evidenceAgainstPrimary])
      | some (.error _, _) => some (.error .lightClientAttack, [evidenceAgainstPrimary])
      | some (.ok (primaryTrace, witnessBlock), _) =>
        match evidenceAgainst witnessBlock primaryTrace with
        | .error msg => some (.error (.panic msg), [evidenceAgainstPrimary])
        | .ok evidenceAgainstWitness =>
          some (.error .lightClientAttack, [evidenceAgainstPrimary, evidenceAgainstWitness])

variable (answers : Nat → Source) (lastVerifiedBlock : LightBlock)

/-- The loop over the replies in the order of their witnesses: whether a header matched, and the
witnesses to remove. -/
def handleReplies : List Nat → Bool → List Nat → Option (Except ClientError (Bool × List Nat))
  | [], headerMatched, witnessesToRemove => some (.ok (headerMatched, witnessesToRemove))
  | i :: is, headerMatched, witnessesToRemove =>
    match compareNewLightBlockWithWitness (answers i) cfg.hashes lastVerifiedBlock with
    | (.headerMatched, _) => handleReplies is true witnessesToRemove
    | (.conflictingHeaders block, n) =>
      match handleConflictingHeaders cfg now fuel primary primaryTrace (answers i) block n with
      | none => none
      | some (.error e, _) => some (.error e)
      | some (.ok (), _) => handleReplies is headerMatched (witnessesToRemove ++ [i])
    | (.badWitness _, _) => handleReplies is headerMatched (witnessesToRemove ++ [i])
    | (.proposerPrioritiesDiverge got wanted, _) =>
      some (.error (.proposerPrioritiesDiverge got i wanted))
    | (.failed e, _) =>
      if e.isContextError then some (.error (.provider e))
      else handleReplies is headerMatched witnessesToRemove

end Detect

/-- `removeWitnesses`: from the highest index down, the last witness takes the place of a removed
one. -/
def removeWitnesses {α : Type} (witnesses : List α) (indexes : List Nat) :
    Except ClientError (List α) :=
  if witnesses.length ≤ indexes.length then .error .noWitnesses
  else .ok (SwapRemove.removeAll witnesses (indexes.insertionSort (· ≤ ·)).reverse)

/-- `detectDivergence`: its result and the witnesses after it. The replies of the witnesses arrive
in the order `order`. -/
def detectDivergence {α : Type} (cfg : Config) (now : Time) (fuel : Nat) (primary : Source)
    (answers : Nat → Source) (order : List Nat) (witnesses : List α)
    (primaryTrace : List LightBlock) : Option (Except ClientError Unit × List α) :=
  match primaryTrace.getLast? with
  | none => some (.error (.other "nil or single block primary trace"), witnesses)
  | some lastVerifiedBlock =>
    if primaryTrace.length < 2 then
      some (.error (.other "nil or single block primary trace"), witnesses)
    else if witnesses.isEmpty then some (.error .noWitnesses, witnesses)
    else
      match handleReplies cfg now fuel primary primaryTrace answers lastVerifiedBlock order false
          [] with
      | none => none
      | some (.error e) => some (.error e, witnesses)
      | some (.ok (headerMatched, witnessesToRemove)) =>
        match removeWitnesses witnesses witnessesToRemove with
        | .error e => some (.error e, witnesses)
        | .ok witnesses =>
          if headerMatched then some (.ok (), witnesses)
          else some (.error .failedHeaderCrossReferencing, witnesses)

end CelestiaCore.Light
