import CelestiaCore.Types.SignDomains

/-!
# The file-backed private validator

`FilePV` of `privval/file.go`: the last sign state and the checks that guard a new signature.
-/
namespace CelestiaCore.Privval
open Wire

def stepPropose : Int8 := 1
def stepPrevote : Int8 := 2
def stepPrecommit : Int8 := 3

/-- The immutable key of a validator: whatever it signs verifies. -/
structure PrivKey where
  sign : Bytes → Except String Bytes
  verify : Bytes → Bytes → Bool
  verify_sign : ∀ msg sig, sign msg = .ok sig → verify msg sig = true

/-- `FilePVLastSignState`, with `none` for a nil slice. -/
structure LastSignState where
  height : Int64
  round : Int32
  step : Int8
  signature : Option Bytes
  signBytes : Option Bytes
  deriving DecidableEq, Repr

/-- The state `GenFilePV` starts with. -/
def LastSignState.initial : LastSignState := ⟨0, 0, 0, none, none⟩

/-- What `LoadFilePV` reads back: an empty signature is not written to the file. -/
def LastSignState.reload (lss : LastSignState) : LastSignState :=
  { lss with signature := lss.signature.filter (· ≠ []) }

/-- `CheckHRS`. The outer error is its panic, the inner one the error it returns. -/
def LastSignState.checkHRS (lss : LastSignState) (height : Int64) (round : Int32) (step : Int8) :
    Except String (Except String Bool) :=
  if height < lss.height then
    .ok (.error s!"height regression. Got {height}, last height {lss.height}")
  else if lss.height = height then
    if round < lss.round then
      .ok (.error s!"round regression at height {height}. Got {round}, last round {lss.round}")
    else if lss.round = round then
      if step < lss.step then
        .ok (.error
          s!"step regression at height {height} round {round}. Got {step}, last step {lss.step}")
      else if lss.step = step then
        match lss.signBytes, lss.signature with
        | some _, none => .error "pv: Signature is nil but SignBytes is not!"
        | some _, some _ => .ok (.ok true)
        | none, _ => .ok (.error "no SignBytes found")
      else .ok (.ok false)
    else .ok (.ok false)
  else .ok (.ok false)

def voteToStep (vote : Vote) : Except String Int8 :=
  if vote.type = .prevote then .ok stepPrevote
  else if vote.type = .precommit then .ok stepPrecommit
  else .error s!"Unknown vote type: {vote.type.val}"

/-- Compares two votes with their timestamps set to one instant, and returns the older one's. -/
def checkVotesOnlyDifferByTimestamp (lastSignBytes newSignBytes : Bytes) :
    Except String (Time × Bool) :=
  match CanonicalVote.unmarshalDelimited lastSignBytes with
  | none => .error "LastSignBytes cannot be unmarshalled into vote"
  | some lastVote =>
    match CanonicalVote.unmarshalDelimited newSignBytes with
    | none => .error "signBytes cannot be unmarshalled into vote"
    | some newVote =>
      let now : Time := 0
      .ok (lastVote.timestamp,
        { newVote with timestamp := now } = { lastVote with timestamp := now })

def checkProposalsOnlyDifferByTimestamp (lastSignBytes newSignBytes : Bytes) :
    Except String (Time × Bool) :=
  match CanonicalProposal.unmarshalDelimited lastSignBytes with
  | none => .error "LastSignBytes cannot be unmarshalled into proposal"
  | some lastProposal =>
    match CanonicalProposal.unmarshalDelimited newSignBytes with
    | none => .error "signBytes cannot be unmarshalled into proposal"
    | some newProposal =>
      let now : Time := 0
      .ok (lastProposal.timestamp,
        { newProposal with timestamp := now } = { lastProposal with timestamp := now })

/-- How a request ends: the message as it was modified, the error returned, and the state that
`saveSigned` wrote. -/
structure Reply (M : Type) where
  msg : M
  err : Option String
  saved : Option LastSignState

/-- The extension signature of a non-nil precommit, or the error for an extension elsewhere. -/
def extensionSignature (key : PrivKey) (chainID : Bytes) (vote : Vote) : Except String Bytes :=
  if vote.type = .precommit ∧ vote.blockID.isZero = false then
    key.sign (voteExtensionSignBytes chainID vote)
  else if 0 < vote.extension.length then
    .error "unexpected vote extension - extensions are only allowed in non-nil precommits"
  else .ok []

/-- The branch of `signVote` for a position that is already signed: it never signs again. -/
def reuseVote (lss : LastSignState) (signBytes extSig : Bytes) (vote : Vote) :
    Except String (Reply Vote) := do
  let last := lss.signBytes.getD []
  let sig := lss.signature.getD []
  if signBytes = last then
    .ok ⟨{ vote with signature := sig, extensionSignature := extSig }, none, none⟩
  else
    let (timestamp, ok) ← checkVotesOnlyDifferByTimestamp last signBytes
    if ok then
      let stamped := { vote with timestamp := timestamp, signature := sig }
      .ok ⟨{ stamped with extensionSignature := extSig }, none, none⟩
    else .ok ⟨{ vote with extensionSignature := extSig }, some "conflicting data", none⟩

/-- The branch of `signVote` for a new position, ending in `saveSigned`. -/
def freshVote (key : PrivKey) (step : Int8) (signBytes extSig : Bytes) (vote : Vote) : Reply Vote :=
  match key.sign signBytes with
  | .error e => ⟨vote, some e, none⟩
  | .ok sig =>
    ⟨{ vote with signature := sig, extensionSignature := extSig }, none,
      some ⟨vote.height, vote.round, step, some sig, some signBytes⟩⟩

/-- `signVote`, with an error for its panics. -/
def signVote (key : PrivKey) (lss : LastSignState) (chainID : Bytes) (vote : Vote) :
    Except String (Reply Vote) := do
  let step ← voteToStep vote
  match ← lss.checkHRS vote.height vote.round step with
  | .error e => .ok ⟨vote, some e, none⟩
  | .ok sameHRS =>
    match voteSignBytes chainID vote with
    | none => .error "VoteSignBytes"
    | some signBytes =>
      match extensionSignature key chainID vote with
      | .error e => .ok ⟨vote, some e, none⟩
      | .ok extSig =>
        if sameHRS then reuseVote lss signBytes extSig vote
        else .ok (freshVote key step signBytes extSig vote)

def reuseProposal (lss : LastSignState) (signBytes : Bytes) (proposal : Proposal) :
    Except String (Reply Proposal) := do
  let last := lss.signBytes.getD []
  let sig := lss.signature.getD []
  if signBytes = last then .ok ⟨{ proposal with signature := sig }, none, none⟩
  else
    let (timestamp, ok) ← checkProposalsOnlyDifferByTimestamp last signBytes
    if ok then .ok ⟨{ proposal with timestamp := timestamp, signature := sig }, none, none⟩
    else .ok ⟨proposal, some "conflicting data", none⟩

def freshProposal (key : PrivKey) (signBytes : Bytes) (proposal : Proposal) : Reply Proposal :=
  match key.sign signBytes with
  | .error e => ⟨proposal, some e, none⟩
  | .ok sig =>
    ⟨{ proposal with signature := sig }, none,
      some ⟨proposal.height, proposal.round, stepPropose, some sig, some signBytes⟩⟩

/-- `signProposal`, with an error for its panics. -/
def signProposal (key : PrivKey) (lss : LastSignState) (chainID : Bytes) (proposal : Proposal) :
    Except String (Reply Proposal) := do
  match ← lss.checkHRS proposal.height proposal.round stepPropose with
  | .error e => .ok ⟨proposal, some e, none⟩
  | .ok sameHRS =>
    match proposalSignBytes chainID proposal with
    | none => .error "ProposalSignBytes"
    | some signBytes =>
      if sameHRS then reuseProposal lss signBytes proposal
      else .ok (freshProposal key signBytes proposal)

end CelestiaCore.Privval
