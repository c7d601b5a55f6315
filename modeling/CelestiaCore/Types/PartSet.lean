import CelestiaCore.Merkle.Proof

/-!
# Part sets

`types/part_set.go`: parts collected in any order and checked against the root of the header.
-/
namespace CelestiaCore
open Wire

def blockPartSizeBytes : Nat := 65536

inductive PartSetError where
  | nilPart
  | tooBig
  | invalidSize
  | invalidPart (reason : String)
  | invalidProofTotal
  | invalidProofHash (reason : String)
  | unexpectedIndex
  | bufferBounds
  deriving DecidableEq, Repr

structure Part where
  index : UInt32
  bytes : Bytes
  proof : Merkle.Proof
  deriving DecidableEq, Repr, Inhabited

namespace Part

def validateBasicWithPartSize (part : Part) (partSize : Nat) : Except PartSetError Unit :=
  if partSize < part.bytes.length then .error .tooBig
  else if part.index.toNat < (part.proof.total - 1).toInt ∧ part.bytes.length ≠ partSize then
    .error .invalidSize
  else if (part.index.toNat : Int) ≠ part.proof.index.toInt then
    .error (.invalidPart s!"part index {part.index} != proof index {part.proof.index}")
  else
    match part.proof.validateBasic with
    | .error e => .error (.invalidPart s!"wrong Proof: {e}")
    | .ok () => .ok ()

def validateBasic (part : Part) : Except PartSetError Unit :=
  part.validateBasicWithPartSize blockPartSizeBytes

end Part

structure PartSet where
  total : UInt32
  hash : Bytes
  buffer : Bytes
  partSize : Nat
  lastPartSize : Nat
  proofs : List Merkle.Proof
  partsBitArray : List Bool
  count : UInt32
  byteSize : Int
  bits_length : partsBitArray.length = total.toNat
  count_eq : count.toNat = partsBitArray.count true

namespace PartSet

/-- `NewPartSetFromHeader`: an empty part set ready to be populated. -/
def fromHeader (header : PartSetHeader) (partSize : Nat) : PartSet where
  total := header.total
  hash := header.hash
  buffer := .replicate (header.total.toNat * partSize) 0
  partSize := partSize
  lastPartSize := 0
  proofs := .replicate header.total.toNat default
  partsBitArray := .replicate header.total.toNat false
  count := 0
  byteSize := 0
  bits_length := by simp
  count_eq := by simp [List.count_replicate]

def header (ps : PartSet) : PartSetHeader := ⟨ps.total, ps.hash⟩

def hasHeader (ps : PartSet) (header : PartSetHeader) : Bool := ps.header = header

def hasPart (ps : PartSet) (index : Nat) : Bool := ps.partsBitArray.getD index false

def isComplete (ps : PartSet) : Bool := ps.count = ps.total

/-- The bytes of a part within the buffer replaced by those of the part. -/
def copyAt (buffer bytes : Bytes) (start : Nat) : Bytes :=
  buffer.take start ++ bytes ++ buffer.drop (start + bytes.length)

variable {ps : PartSet}

theorem count_lt_total {i : Nat} (hi : i < ps.total.toNat)
    (h : ps.hasPart i = false) : ps.count.toNat < ps.total.toNat := by
  rw [ps.count_eq, ← ps.bits_length, List.count_lt_length_iff]
  rw [← ps.bits_length] at hi
  refine ⟨ps.partsBitArray[i], List.getElem_mem hi, ?_⟩
  simpa [hasPart, List.getD_eq_getElem?_getD, hi] using h

theorem count_set {i : Nat} (hi : i < ps.total.toNat) (h : ps.hasPart i = false) :
    (ps.count + 1).toNat = (ps.partsBitArray.set i true).count true := by
  have hlt := count_lt_total hi h
  have hbit : i < ps.partsBitArray.length := ps.bits_length ▸ hi
  have hfalse : ps.partsBitArray[i] = false := by
    simpa [hasPart, List.getD_eq_getElem?_getD, hbit] using h
  have hmax := ps.total.toNat_lt
  have hone : (ps.count + 1).toNat = ps.count.toNat + 1 := by
    rw [UInt32.toNat_add, UInt32.toNat_one, Nat.mod_eq_of_lt (by omega)]
  rw [hone, List.count_set hbit, hfalse, ps.count_eq]
  simp

/-- `addPart`: the part set, and whether the part was added or why not. -/
def addPartUnchecked (ps : PartSet) (part : Part) : PartSet × Except PartSetError Bool :=
  if hi : ps.total ≤ part.index then (ps, .error .unexpectedIndex)
  else if hbit : ps.hasPart part.index.toNat then (ps, .ok false)
  else
    let start := part.index.toNat * ps.partSize
    if ps.buffer.length < start + part.bytes.length then (ps, .error .bufferBounds)
    else
      have hlt : part.index.toNat < ps.total.toNat := by
        simpa [UInt32.le_iff_toNat_le] using hi
      ({ ps with
          buffer := copyAt ps.buffer part.bytes start
          proofs := ps.proofs.set part.index.toNat part.proof
          lastPartSize := if part.index = ps.total - 1 then part.bytes.length else ps.lastPartSize
          count := ps.count + 1
          byteSize := ps.byteSize + part.bytes.length
          partsBitArray := ps.partsBitArray.set part.index.toNat true
          bits_length := by simpa using ps.bits_length
          count_eq := count_set hlt (by simpa using hbit) }, .ok true)

/-- `AddPart`: checks the part and its proof before it is stored. -/
def addPart (h : Merkle.Digest) (ps : PartSet) (part : Option Part) :
    PartSet × Except PartSetError Bool :=
  match part with
  | none => (ps, .error .nilPart)
  | some part =>
    match part.validateBasicWithPartSize ps.partSize with
    | .error e => (ps, .error e)
    | .ok () =>
      if ps.hasPart part.index.toNat then (ps, .ok false)
      else if part.proof.total.toInt ≠ ps.total.toNat then (ps, .error .invalidProofTotal)
      else
        match part.proof.verify h ps.hash part.bytes with
        | .error e => (ps, .error (.invalidProofHash e))
        | .ok () => ps.addPartUnchecked part

def getPartBytes (ps : PartSet) (index : Nat) : Option Bytes :=
  if ps.hasPart index then
    let start := index * ps.partSize
    let size := if index + 1 = ps.total.toNat then ps.lastPartSize else ps.partSize
    if ps.buffer.length ≤ start ∨ ps.buffer.length < start + size then none
    else some ((ps.buffer.drop start).take size)
  else none

def getPart (ps : PartSet) (index : Nat) : Option Part :=
  (ps.getPartBytes index).map fun bytes =>
    ⟨index.toUInt32, bytes, ps.proofs.getD index default⟩

/-- `GetBytes`, with `none` for the panic on an incomplete part set and for the slice out of
range of a part set without parts. -/
def getBytes (ps : PartSet) : Option Bytes :=
  if ps.isComplete then
    let dataSize := (ps.total - 1).toNat * ps.partSize + ps.lastPartSize
    if ps.buffer.length < dataSize then none else some (ps.buffer.take dataSize)
  else none

@[simp] theorem header_fromHeader (header : PartSetHeader) (partSize : Nat) :
    (fromHeader header partSize).header = header := rfl

@[simp] theorem hasHeader_iff {header : PartSetHeader} :
    ps.hasHeader header = true ↔ ps.header = header := by
  simp [hasHeader]

theorem addPartUnchecked_header (ps : PartSet) (part : Part) :
    (ps.addPartUnchecked part).1.header = ps.header := by
  unfold addPartUnchecked
  simp only
  split_ifs <;> rfl

theorem addPart_header (h : Merkle.Digest) (ps : PartSet) (part : Option Part) :
    (ps.addPart h part).1.header = ps.header := by
  unfold addPart
  repeat' split
  all_goals first
    | rfl
    | exact ps.addPartUnchecked_header _

theorem hasPart_of_isComplete (h : ps.isComplete = true) {i : Nat}
    (hi : i < ps.total.toNat) : ps.hasPart i = true := by
  by_contra hbit
  have hlt := count_lt_total hi (by simpa using hbit)
  have hcount : ps.count = ps.total := by simpa [isComplete] using h
  rw [hcount] at hlt
  exact lt_irrefl _ hlt

theorem addPart_of_isComplete (h : Merkle.Digest) (hps : ps.isComplete = true)
    (part : Option Part) : (ps.addPart h part).1 = ps ∧ (ps.addPart h part).2 ≠ .ok true := by
  have hunchecked : ∀ part, (ps.addPartUnchecked part).1 = ps ∧
      (ps.addPartUnchecked part).2 ≠ .ok true := by
    intro part
    unfold addPartUnchecked
    by_cases hi : ps.total ≤ part.index
    · rw [dif_pos hi]
      exact ⟨rfl, by simp⟩
    · have hlt : part.index.toNat < ps.total.toNat := by
        simpa [UInt32.le_iff_toNat_le] using hi
      rw [dif_neg hi, dif_pos (hasPart_of_isComplete hps hlt)]
      exact ⟨rfl, by simp⟩
  unfold addPart
  repeat' split
  all_goals first
    | exact ⟨rfl, by simp⟩
    | exact hunchecked _

end PartSet

end CelestiaCore
