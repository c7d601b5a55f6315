import CelestiaCore.Types.BlockID

/-!
# Merkle inclusion proofs

`crypto/merkle/proof.go` and `hash.go`: the check of an inclusion proof against a root, over the
digest function `tmhash.Sum` as a parameter.
-/
namespace CelestiaCore.Merkle
open Wire

/-- `tmhash.Sum`, with the size of its digests. -/
structure Digest where
  sum : Bytes → Bytes
  length_sum : ∀ bs, (sum bs).length = hashSize

def leafHash (h : Digest) (leaf : Bytes) : Bytes := h.sum (0 :: leaf)

def innerHash (h : Digest) (left right : Bytes) : Bytes := h.sum (1 :: (left ++ right))

def maxAunts : Nat := 100

structure Proof where
  total : Int64
  index : Int64
  leafHash : Bytes
  aunts : List Bytes
  deriving DecidableEq, Repr, Inhabited

/-- `getSplitPoint`: the largest power of two below the length. -/
def getSplitPoint (length : Int) : Int :=
  let k : Int := 2 ^ Nat.log2 length.toNat
  if k = length then k / 2 else k

/-- `computeHashFromAunts` on the aunts in reverse, the one below the root first. -/
def computeHashFromAuntsRev (h : Digest) (leaf : Bytes) : Int → Int → List Bytes →
    Except String Bytes
  | index, total, [] =>
    if total ≤ index ∨ index < 0 ∨ total ≤ 0 then .error "invalid index and/or total"
    else if total = 1 then .ok leaf
    else .error "expected at least one inner hash"
  | index, total, aunt :: aunts =>
    if total ≤ index ∨ index < 0 ∨ total ≤ 0 then .error "invalid index and/or total"
    else if total = 1 then .error "unexpected inner hashes"
    else
      let numLeft := getSplitPoint total
      if index < numLeft then do
        let left ← computeHashFromAuntsRev h leaf index numLeft aunts
        .ok (innerHash h left aunt)
      else do
        let right ← computeHashFromAuntsRev h leaf (index - numLeft) (total - numLeft) aunts
        .ok (innerHash h aunt right)

namespace Proof

def computeRootHash (h : Digest) (sp : Proof) : Except String Bytes :=
  computeHashFromAuntsRev h sp.leafHash sp.index.toInt sp.total.toInt sp.aunts.reverse

/-- `Verify`; a root hash is never nil here, since a part set always has one. -/
def verify (h : Digest) (sp : Proof) (rootHash leaf : Bytes) : Except String Unit :=
  if sp.total < 0 then .error "proof total must be positive"
  else if sp.index < 0 then .error "proof index cannot be negative"
  else if sp.leafHash ≠ Merkle.leafHash h leaf then .error "invalid leaf hash"
  else
    match sp.computeRootHash h with
    | .error e => .error s!"compute root hash: {e}"
    | .ok computed => if computed ≠ rootHash then .error "invalid root hash" else .ok ()

def validateBasic (sp : Proof) : Except String Unit :=
  if sp.total < 0 then .error "negative Total"
  else if sp.index < 0 then .error "negative Index"
  else if sp.leafHash.length ≠ hashSize then
    .error s!"expected LeafHash size to be {hashSize}, got {sp.leafHash.length}"
  else if maxAunts < sp.aunts.length then
    .error s!"expected no more than {maxAunts} aunts, got {sp.aunts.length}"
  else
    match sp.aunts.zipIdx.find? (·.1.length ≠ hashSize) with
    | some (aunt, i) =>
      .error s!"expected Aunts#{i} size to be {hashSize}, got {aunt.length}"
    | none => .ok ()

end Proof

end CelestiaCore.Merkle
