import CelestiaCore.Merkle.Proof
import CelestiaCore.Types.BlobTx

/-!
# Share proofs

`types/share_proof.go` and `types/row_proof.go`. The fields come from the prover; nil pointers are
`none`, and a dereference of nil or an index out of range is a panic.
-/
namespace CelestiaCore.Shares
open Wire Merkle

inductive Failure where
  | err (msg : String)
  | panic (msg : String)
  | wraparound
  deriving DecidableEq, Repr

/-- What becomes of the exact result of a sum or a difference in 64 bits. -/
structure Word where
  int64 : Int → Except Failure Int
  uint64 : Int → Except Failure Int

def Word.machine : Word := ⟨fun x => .ok (x.bmod (2 ^ 64)), fun x => .ok (x % 2 ^ 64)⟩

def Word.checked : Word where
  int64 x := if -2 ^ 63 ≤ x ∧ x < 2 ^ 63 then .ok x else .error .wraparound
  uint64 x := if 0 ≤ x ∧ x < 2 ^ 64 then .ok x else .error .wraparound

structure NMTProof where
  start : Int32
  stop : Int32
  nodes : List Bytes
  deriving DecidableEq, Repr

structure RowProof where
  rowRoots : List Bytes
  proofs : List (Option Proof)
  startRow : UInt32
  endRow : UInt32
  deriving DecidableEq, Repr

structure ShareProof where
  data : List Bytes
  shareProofs : List (Option NMTProof)
  namespaceID : Bytes
  rowProof : RowProof
  namespaceVersion : UInt32
  deriving DecidableEq, Repr

/-- `Proof.VerifyInclusion` of `nmt` with its range, nodes, namespace, leaves and root. -/
abbrev VerifyInclusion := Int → Int → List Bytes → Bytes → List Bytes → Bytes → Bool

def indexPanic : Failure := .panic "index out of range"

def nilPanic : Failure := .panic "invalid memory address or nil pointer dereference"

def deref {α : Type} (l : List (Option α)) (i : Nat) : Except Failure α :=
  match l[i]? with
  | none => .error indexPanic
  | some none => .error nilPanic
  | some (some x) => .ok x

section Rows
variable (w : Word) (h : Digest)

/-- `Proof.Verify` on a pointer, for a root that may be nil. -/
def verifyPointer (proof : Option Proof) (root : Option Bytes) (leaf : Bytes) :
    Except Failure Bool :=
  match root, proof with
  | none, _ => .ok false
  | some _, none => .error nilPanic
  | some root, some proof => .ok (proof.verify h root leaf = .ok ())

/-- The loop of `RowProof.VerifyProof`. -/
def RowProof.verifyFrom (rp : RowProof) (root : Option Bytes) :
    List (Option Proof) → Nat → Except Failure Bool
  | [], _ => .ok true
  | proof :: proofs, i =>
    match rp.rowRoots[i]? with
    | none => .error indexPanic
    | some rowRoot => do
      let valid ← verifyPointer h proof root rowRoot
      if valid then verifyFrom rp root proofs (i + 1) else .ok false

def RowProof.verifyProof (rp : RowProof) (root : Option Bytes) : Except Failure Bool :=
  rp.verifyFrom h root rp.proofs 0

/-- The loop of `RowProof.Validate` over the proofs. -/
def RowProof.checkRows (rp : RowProof) : List (Option Proof) → Nat → Except Failure Unit
  | [], _ => .ok ()
  | none :: _, i => do
    let row ← w.uint64 (rp.startRow.toNat + i)
    .error (.err s!"nil proof for row {row}")
  | some proof :: proofs, i => do
    let expected ← w.int64 (rp.startRow.toNat + i)
    if proof.index.toInt ≠ expected then
      .error (.err s!"proof index {proof.index} does not match claimed row {expected}")
    else do
      let first ← deref rp.proofs 0
      if proof.total ≠ first.total then
        .error (.err
          s!"proof total {proof.total} does not match the first proof's total {first.total}")
      else if proof.total < 4 ∨ proof.total &&& (proof.total - 1) ≠ 0 then
        .error (.err s!"proof total {proof.total} must be a power of two of at least 4")
      else if proof.total.toInt.tdiv 2 ≤ proof.index.toInt then
        .error (.err
          s!"proof index {proof.index} is not a row root index (total leaves {proof.total})")
      else checkRows rp proofs (i + 1)

def RowProof.validate (rp : RowProof) (root : Option Bytes) : Except Failure Unit :=
  if rp.rowRoots.length = 0 then .error (.err "row proof must contain at least one row root")
  else if rp.endRow < rp.startRow then
    .error (.err s!"end row {rp.endRow} cannot be less than start row {rp.startRow}")
  else do
    let difference ← w.uint64 (rp.endRow.toNat - rp.startRow.toNat)
    let expectedRows ← w.uint64 (difference + 1)
    if expectedRows ≠ rp.rowRoots.length then
      .error (.err (s!"the number of rows {expectedRows} must equal the number of row roots " ++
        s!"{rp.rowRoots.length}"))
    else if rp.proofs.length ≠ rp.rowRoots.length then
      .error (.err (s!"the number of proofs {rp.proofs.length} must equal the number of row " ++
        s!"roots {rp.rowRoots.length}"))
    else do
      rp.checkRows w rp.proofs 0
      let valid ← rp.verifyProof h root
      if valid then .ok () else .error (.err "row proof failed to verify")

end Rows

section Shares
variable (w : Word) (h : Digest) (verifyInclusion : VerifyInclusion)

def countShares : List (Option NMTProof) → Int → Except Failure Int
  | [], n => .ok n
  | none :: _, _ => .error (.err "nil share proof")
  | some proof :: proofs, n =>
    if proof.start < 0 then .error (.err "proof index cannot be negative")
    else if proof.stop ≤ proof.start then .error (.err "proof total must be positive")
    else do
      let used ← w.int64 (proof.stop.toInt - proof.start.toInt)
      let n ← w.int64 (n + used)
      countShares proofs n

namespace ShareProof

/-- The loop that checks that the shares form one range inside the original square. -/
def checkPositions (sp : ShareProof) (width : Int) : List (Option NMTProof) → Nat →
    Except Failure Unit
  | [], _ => .ok ()
  | proof :: proofs, i => do
    let row ← deref sp.rowProof.proofs i
    if width ≤ row.index.toInt then
      .error (.err s!"row {row.index} is outside the original data square of width {width}")
    else
      match proof with
      | none => .error nilPanic
      | some proof =>
        if width < proof.stop.toInt then
          .error (.err s!"share proof {i} ends at {proof.stop} past the square width {width}")
        else if 0 < i ∧ proof.start ≠ 0 then
          .error (.err s!"share proof {i} must start at the beginning of its row")
        else if i < sp.shareProofs.length - 1 ∧ proof.stop.toInt ≠ width then
          .error (.err s!"share proof {i} must end at the end of its row")
        else checkPositions sp width proofs (i + 1)

/-- The loop of `VerifyProof`, with its cursor into the shares. -/
def verifyFrom (sp : ShareProof) : List (Option NMTProof) → Nat → Int → Except Failure Bool
  | [], _, _ => .ok true
  | none :: _, _, _ => .ok false
  | some proof :: proofs, i, cursor =>
    if proof.start < 0 ∨ proof.stop ≤ proof.start then .ok false
    else do
      let used ← w.int64 (proof.stop.toInt - proof.start.toInt)
      let stop ← w.int64 (cursor + used)
      if sp.data.length < stop then .ok false
      else if cursor < 0 ∨ stop < cursor then .error (.panic "slice bounds out of range")
      else
        match sp.rowProof.rowRoots[i]? with
        | none => .error indexPanic
        | some rowRoot =>
          let leaves := (sp.data.drop cursor.toNat).take (stop - cursor).toNat
          if verifyInclusion proof.start.toInt proof.stop.toInt proof.nodes
              (sp.namespaceVersion.toUInt8 :: sp.namespaceID) leaves rowRoot then
            verifyFrom sp proofs (i + 1) stop
          else .ok false

def verifyProof (sp : ShareProof) : Except Failure Bool :=
  if 255 < sp.namespaceVersion ∨ sp.namespaceID.length ≠ namespaceIDSize then .ok false
  else if sp.rowProof.rowRoots.length ≠ sp.shareProofs.length then .ok false
  else sp.verifyFrom w verifyInclusion sp.shareProofs 0 0

/-- `Validate` with a given arithmetic. -/
def validateIn (sp : ShareProof) (root : Option Bytes) : Except Failure Unit :=
  if sp.namespaceID.length ≠ namespaceIDSize then
    .error (.err s!"namespace ID must be {namespaceIDSize} bytes, got {sp.namespaceID.length}")
  else do
    let numberOfSharesInProofs ← countShares w sp.shareProofs 0
    if sp.shareProofs.length ≠ sp.rowProof.rowRoots.length then
      .error (.err (s!"the number of share proofs {sp.shareProofs.length} must equal the number " ++
        s!"of row roots {sp.rowProof.rowRoots.length}"))
    else if sp.data.length ≠ numberOfSharesInProofs then
      .error (.err (s!"the number of shares {sp.data.length} must equal the number of shares " ++
        s!"in share proofs {numberOfSharesInProofs}"))
    else do
      sp.rowProof.validate w h root
      let first ← deref sp.rowProof.proofs 0
      sp.checkPositions (first.total.toInt.tdiv 4) sp.shareProofs 0
      let valid ← sp.verifyProof w verifyInclusion
      if valid then .ok () else .error (.err "share proof failed to verify")

def validate (sp : ShareProof) (root : Option Bytes) : Except Failure Unit :=
  sp.validateIn .machine h verifyInclusion root

end ShareProof

end Shares

end CelestiaCore.Shares
