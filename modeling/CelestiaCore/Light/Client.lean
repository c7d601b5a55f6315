import CelestiaCore.Light.Detector

/-!
# The light client

`light/client.go`: the primary, its replacement by a witness, and sequential and skipping
verification. -/
namespace CelestiaCore.Light
open Wire

/-- The outside of a client: for each time and provider the answers of a conversation, and the order
in which the witnesses reply. -/
structure Env where
  answer : Nat → Nat → Source
  order : Nat → Nat → List Nat

inductive Mode where
  | sequential
  | skipping
  deriving DecidableEq, Repr

structure Settings extends Config where
  verificationMode : Mode
  pruningSize : UInt16

/-- The client, with the trusted store in order of height and the size that the store counts. -/
structure Client where
  primary : Nat
  witnesses : List Nat
  blocks : List LightBlock
  size : UInt16
  latestTrustedBlock : LightBlock
  clock : Nat

namespace Client

def tick (c : Client) : Client := { c with clock := c.clock + 1 }

section Providers
variable (env : Env)

/-- The responses of the witnesses as they come in: the first block with its witness, the witnesses
to remove and the last error. -/
def scanResponses (c : Client) (height : Int64) : List Nat → List Nat → Option ProviderError →
    Option (LightBlock × Nat) × List Nat × Option ProviderError
  | [], witnessesToRemove, lastError => (none, witnessesToRemove, lastError)
  | i :: is, witnessesToRemove, lastError =>
    match c.witnesses[i]? with
    | none => scanResponses c height is witnessesToRemove lastError
    | some witness =>
      match env.answer c.clock witness 0 height with
      | .ok lb => (some (lb, i), witnessesToRemove, lastError)
      | .error e =>
        if e.isBenign then scanResponses c height is witnessesToRemove (some e)
        else scanResponses c height is (witnessesToRemove ++ [i]) (some e)

def findNewPrimary (height : Int64) (remove : Bool) (c : Client) :
    Except ClientError LightBlock × Client :=
  if c.witnesses.isEmpty then (.error .noWitnesses, c)
  else
    match scanResponses env c height (env.order c.clock c.witnesses.length) [] none with
    | (some (lb, i), witnessesToRemove, _) =>
      let witnesses := if remove then c.witnesses else c.witnesses ++ [c.primary]
      let primary := (witnesses[i]?).getD c.primary
      match removeWitnesses witnesses (witnessesToRemove ++ [i]) with
      | .error e => (.error e, { c.tick with witnesses, primary })
      | .ok witnesses => (.ok lb, { c.tick with witnesses, primary })
    | (none, witnessesToRemove, lastError) =>
      let witnesses := match removeWitnesses c.witnesses witnessesToRemove with
        | .error _ => c.witnesses
        | .ok witnesses => witnesses
      match lastError with
      | none => (.error (.panic "nil pointer dereference"), { c.tick with witnesses })
      | some e => (.error (.provider e), { c.tick with witnesses })

def lightBlockFromPrimary (height : Int64) (c : Client) : Except ClientError LightBlock × Client :=
  match env.answer c.clock c.primary 0 height with
  | .ok l => (.ok l, c.tick)
  | .error e =>
    if e.isContextError then (.error (.provider e), c.tick)
    else findNewPrimary env height (!e.isBenign) c.tick

def runDetector (cfg : Config) (now : Time) (fuel : Nat) (trace : List LightBlock) (c : Client) :
    Option (Except ClientError Unit × Client) :=
  let answers i := match c.witnesses[i]? with
    | none => fun _ _ => .error .noResponse
    | some witness => env.answer c.clock witness
  match detectDivergence cfg now fuel (env.answer c.clock c.primary) answers
      (env.order c.clock c.witnesses.length) c.witnesses trace with
  | none => none
  | some (r, witnesses) => some (r, { c.tick with witnesses })

end Providers

/-- The reason of an `ErrVerificationFailed` for an error of `lightBlockFromPrimary`. -/
def failedToFetch (verified height : Int64) : ClientError → ClientError
  | .provider e => .verificationFailed verified height (.provider e)
  | .noWitnesses => .verificationFailed verified height .noWitnesses
  | e => e

/-- The variables of the loop of `verifySequential`. -/
structure SeqState where
  height : Int64
  verifiedBlock : LightBlock
  trace : List LightBlock
  client : Client

section Verification
variable (env : Env) (cfg : Config) (now : Time) (fuel : Nat) (newLightBlock : LightBlock)

/-- One iteration of `verifySequential`: the next state, or the trace or error it leaves with. -/
def seqStep (s : SeqState) : SeqState ⊕ (Except ClientError (List LightBlock) × Client) :=
  if ¬s.height ≤ newLightBlock.height then .inr (.ok s.trace, s.client)
  else
    match if s.height = newLightBlock.height then (.ok newLightBlock, s.client)
        else lightBlockFromPrimary env s.height s.client with
    | (.error e, c) => .inr (.error (failedToFetch s.verifiedBlock.height s.height e), c)
    | (.ok interimBlock, c) =>
      match verifyAdjacent cfg s.verifiedBlock interimBlock now with
      | .ok () => .inl ⟨s.height + 1, interimBlock, s.trace ++ [interimBlock], c⟩
      | .error (.panic msg) => .inr (.error (.panic msg), c)
      | .error (.invalidHeader reason) =>
        let err := .verificationFailed s.verifiedBlock.height interimBlock.height
          (.light (.invalidHeader reason))
        if interimBlock.height = newLightBlock.height then .inr (.error err, c)
        else
          -- an intermediate header is invalid: replace the primary and try again
          match findNewPrimary env newLightBlock.height true c with
          | (.error (.panic msg), c) => .inr (.error (.panic msg), c)
          | (.error _, c) => .inr (.error err, c)
          | (.ok replacementBlock, c) =>
            if replacementBlock.hash cfg.hashes ≠ newLightBlock.hash cfg.hashes then
              .inr (.error err, c)
            else .inl { s with client := c }
      | .error e =>
        .inr (.error (.verificationFailed s.verifiedBlock.height interimBlock.height (.light e)), c)

def verifySequential (trustedBlock : LightBlock) (c : Client) :
    Option (Except ClientError Unit × Client) :=
  match Loop.run (seqStep env cfg now newLightBlock) fuel
      ⟨trustedBlock.height + 1, trustedBlock, [trustedBlock], c⟩ with
  | none => none
  | some (.error e, c) => some (.error e, c)
  | some (.ok trace, c) => runDetector env cfg now fuel trace c

/-- `verifySkippingAgainstPrimary`, replacing the primary fewer than `rounds` times. -/
def verifySkippingAgainstPrimary (trustedBlock : LightBlock) : Nat → LightBlock → Client →
    Option (Except ClientError Unit × Client)
  | 0, _, _ => none
  | rounds + 1, newLightBlock, c =>
    match verifySkipping cfg (env.answer c.clock c.primary) now newLightBlock trustedBlock 0
        fuel with
    | none => none
    | some (.ok trace, _) => runDetector env cfg now fuel trace c.tick
    | some (.error (.verificationFailed lo hi (.light (.invalidHeader reason))), _) =>
      let err := .verificationFailed lo hi (.light (.invalidHeader reason))
      if hi = newLightBlock.height then some (.error err, c.tick)
      else
        match findNewPrimary env newLightBlock.height true c.tick with
        | (.error (.panic msg), c) => some (.error (.panic msg), c)
        | (.error _, c) => some (.error err, c)
        | (.ok replacementBlock, c) =>
          if replacementBlock.hash cfg.hashes ≠ newLightBlock.hash cfg.hashes then
            some (.error err, c)
          else verifySkippingAgainstPrimary trustedBlock rounds replacementBlock c
    -- the error wraps nothing, so that the source takes the branch of no error, without a trace
    | some (.error (.light _), _) => runDetector env cfg now fuel [] c.tick
    | some (.error e, _) => some (.error e, c.tick)

def verifyBackwards (hs : Hashes) (untrustedHeader trustedHeader : Header) :
    Except String Unit := do
  untrustedHeader.validateBasic
  reject (untrustedHeader.chainID ≠ trustedHeader.chainID) "header belongs to another chain"
  reject (trustedHeader.time ≤ untrustedHeader.time)
    "expected older header time to be before new header time"
  reject (hs.header untrustedHeader ≠ trustedHeader.lastBlockID.hash)
    "older header hash does not match trusted header's last block"

/-- `backwards`, in at most a number of iterations and restarts. -/
def backwards : Nat → Header → Header → Client → Option (Except ClientError Unit × Client)
  | 0, _, _, _ => none
  | n + 1, verifiedHeader, newHeader, c =>
    if ¬newHeader.height < verifiedHeader.height then
      if cfg.hashes.header verifiedHeader ≠ cfg.hashes.header newHeader then
        some (.error
          (.light (.invalidHeader "header hash does not match the verified header hash")),
          c)
      else some (.ok (), c)
    else
      match lightBlockFromPrimary env (verifiedHeader.height - 1) c with
      | (.error e, c) => some (.error (.wrapped "failed to obtain the header" e), c)
      | (.ok interimBlock, c) =>
        match verifyBackwards cfg.hashes interimBlock.header verifiedHeader with
        | .ok () => backwards n interimBlock.header newHeader c
        | .error reason =>
          match findNewPrimary env newHeader.height true c with
          | (.error _, c) => some (.error (.light (.invalidHeader reason)), c)
          | (.ok newPrimarysBlock, c) =>
            if newPrimarysBlock.hash cfg.hashes ≠ cfg.hashes.header newHeader then
              some (.error (.light (.invalidHeader reason)), c)
            else backwards n verifiedHeader newPrimarysBlock.header c

end Verification

section Store

/-- `SaveLightBlock`: the block takes its place in the order of heights. -/
def saveLightBlock (lb : LightBlock) (c : Client) : Client :=
  { c with
    blocks := c.blocks.filter (·.height < lb.height) ++ lb :: c.blocks.filter (lb.height < ·.height)
    size := c.size + 1 }

/-- `Prune`: the lowest blocks go. -/
def prune (size : UInt16) (c : Client) : Client :=
  if c.size ≤ size then c
  else
    let pruned := min (c.size - size).toNat c.blocks.length
    { c with blocks := c.blocks.drop pruned, size := c.size - pruned.toUInt16 }

def firstTrustedHeight (c : Client) : Int64 :=
  match c.blocks.head? with
  | none => -1
  | some lb => lb.height

def lightBlockBefore (height : Int64) (c : Client) : Option LightBlock :=
  (c.blocks.filter (·.height < height)).getLast?

def updateTrustedLightBlock (pruningSize : UInt16) (l : LightBlock) (c : Client) :
    Except ClientError Unit × Client :=
  if l.height ≤ 0 then (.error (.panic "negative or zero height"), c)
  else
    let c := saveLightBlock l c
    let c := if 0 < pruningSize then prune pruningSize c else c
    (.ok (), if c.latestTrustedBlock.height < l.height then
      { c with latestTrustedBlock := l } else c)

end Store

/-- `verifySequential` or `verifySkippingAgainstPrimary`. -/
def verifyFunc (env : Env) (set : Settings) (now : Time) (fuel : Nat)
    (trusted newLightBlock : LightBlock) (c : Client) : Option (Except ClientError Unit × Client) :=
  match set.verificationMode with
  | .sequential => verifySequential env set.toConfig now fuel newLightBlock trusted c
  | .skipping => verifySkippingAgainstPrimary env set.toConfig now fuel trusted fuel newLightBlock c

/-- A block below the trusted store, which is verified backwards. -/
def IsBackward (newLightBlock : LightBlock) (c : Client) : Prop :=
  newLightBlock.height < c.latestTrustedBlock.height ∧ newLightBlock.height < c.firstTrustedHeight

instance (newLightBlock : LightBlock) (c : Client) : Decidable (IsBackward newLightBlock c) :=
  inferInstanceAs (Decidable (_ ∧ _))

/-- The verification that `verifyLightBlock` chooses for a block. -/
def chooseVerification (env : Env) (set : Settings) (now : Time) (fuel : Nat)
    (newLightBlock : LightBlock) (c : Client) : Option (Except ClientError Unit × Client) :=
  if c.latestTrustedBlock.height ≤ newLightBlock.height then
    verifyFunc env set now fuel c.latestTrustedBlock newLightBlock c
  else if newLightBlock.height < c.firstTrustedHeight then
    match c.blocks.head? with
    | none => some (.error (.other "can't get first light block"), c)
    | some firstBlock =>
      backwards env set.toConfig fuel firstBlock.header newLightBlock.header c
  else
    match lightBlockBefore newLightBlock.height c with
    | none => some
      (.error (.other s!"can't get signed header before height {newLightBlock.height}"), c)
    | some closestBlock => verifyFunc env set now fuel closestBlock newLightBlock c

def verifyLightBlock (env : Env) (set : Settings) (now : Time) (fuel : Nat)
    (newLightBlock : LightBlock) (c : Client) : Option (Except ClientError Unit × Client) :=
  match chooseVerification env set now fuel newLightBlock c with
  | none => none
  | some (.error e, c) => some (.error e, c)
  | some (.ok (), c) => some (updateTrustedLightBlock set.pruningSize newLightBlock c)

end Client

end CelestiaCore.Light
