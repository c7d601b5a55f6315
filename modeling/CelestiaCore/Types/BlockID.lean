import CelestiaCore.Wire.Field

/-!
# Block identifiers

`PartSetHeader` and `BlockID` of `types/part_set.go` and `types/block.go`.
-/
namespace CelestiaCore
open Wire List

/-- Size of a SHA-256 digest, `tmhash.Size`. -/
def hashSize : Nat := 32

def maxBlockPartsCount : Nat := 128 * 1024 * 1024 / 65536 + 1

structure PartSetHeader where
  total : UInt32
  hash : Bytes
  deriving DecidableEq, Repr, Inhabited

structure BlockID where
  hash : Bytes
  partSetHeader : PartSetHeader
  deriving DecidableEq, Repr, Inhabited

def validateHash (h : Bytes) : Except String Unit :=
  if 0 < h.length ∧ h.length ≠ hashSize then
    .error s!"expected size to be 32 bytes, got {h.length} bytes"
  else .ok ()

namespace PartSetHeader

def zero : PartSetHeader := ⟨0, []⟩

def isZero (psh : PartSetHeader) : Bool :=
  psh.total = 0 ∧ psh.hash.length = 0

def validateBasic (psh : PartSetHeader) : Except String Unit :=
  if maxBlockPartsCount < psh.total.toNat then
    .error s!"total {psh.total} exceeds MaxBlockPartsCount {maxBlockPartsCount}"
  else
    match validateHash psh.hash with
    | .error e => .error s!"wrong Hash: {e}"
    | .ok () => .ok ()

def fields (psh : PartSetHeader) : List Field :=
  optVarint 1 psh.total.toUInt64 ++ optBytes 2 psh.hash

def marshal (psh : PartSetHeader) : Bytes :=
  encodeFields psh.fields

def setField (psh : PartSetHeader) : Field → Option PartSetHeader
  | ⟨1, .varint n⟩ => some { psh with total := n.toUInt32 }
  | ⟨2, .bytes b⟩ => some { psh with hash := b }
  | ⟨num, _⟩ => if num ∈ [0, 1, 2] then none else some psh

def unmarshalInto (psh : PartSetHeader) (bs : Bytes) : Option PartSetHeader :=
  Wire.unmarshalInto setField psh bs

def Complete (psh : PartSetHeader) : Prop :=
  psh.total ≠ 0 ∧ psh.hash.length = hashSize

theorem unmarshalInto_marshal (psh : PartSetHeader) :
    unmarshalInto zero psh.marshal = some psh := by
  simp only [unmarshalInto, marshal, unmarshalInto_encodeFields, fields]
  simp [setField, zero]

theorem marshal_injective : Function.Injective marshal := by
  intro a b h
  have ha := unmarshalInto_marshal a
  rw [h, unmarshalInto_marshal] at ha
  exact (Option.some.inj ha).symm

theorem Complete.length_marshal {psh : PartSetHeader} (h : psh.Complete) :
    36 ≤ psh.marshal.length ∧ psh.marshal.length ≤ 40 := by
  have hne : psh.total.toUInt64 ≠ 0 := by
    intro h0
    exact h.1 (by simpa using congrArg UInt64.toUInt32 h0)
  have hhash : psh.hash ≠ [] := by
    intro h0
    simpa [h0, hashSize] using h.2
  have hle : (uvarint psh.total.toUInt64.toNat).length ≤ 5 := by
    refine length_uvarint_le 4 _ ?_
    have := psh.total.toNat_lt
    rw [UInt32.toNat_toUInt64]
    omega
  have hpos : 0 < (uvarint psh.total.toUInt64.toNat).length :=
    length_pos_of_ne_nil (uvarint_ne_nil _)
  have hlen : psh.marshal.length =
      1 + (uvarint psh.total.toUInt64.toNat).length + (1 + (1 + hashSize)) := by
    simp only [marshal, fields, optVarint, optBytes, if_neg hne, if_neg hhash, encodeFields,
      flatMap_append, flatMap_singleton, length_append, Field.encode, Value.payload,
      delimit, h.2]
    rfl
  rw [hlen, hashSize]
  omega

end PartSetHeader

namespace BlockID

def zero : BlockID := ⟨[], .zero⟩

/-- `Key`: the block hash followed by the encoded part set header. -/
def key (b : BlockID) : Bytes :=
  b.hash ++ b.partSetHeader.marshal

def validateBasic (b : BlockID) : Except String Unit :=
  match validateHash b.hash with
  | .error _ => .error "wrong Hash"
  | .ok () =>
    match b.partSetHeader.validateBasic with
    | .error e => .error s!"wrong PartSetHeader: {e}"
    | .ok () => .ok ()

def isZero (b : BlockID) : Bool :=
  b.hash.length = 0 ∧ b.partSetHeader.isZero

def isComplete (b : BlockID) : Bool :=
  b.hash.length = hashSize ∧ 0 < b.partSetHeader.total ∧ b.partSetHeader.hash.length = hashSize

/-- The identifiers a node signs: of no block, or of a block whose part set header is complete. -/
def WellFormed (b : BlockID) : Prop :=
  b = zero ∨ (b.hash.length = 0 ∨ b.hash.length = hashSize) ∧ b.partSetHeader.Complete

theorem isZero_iff (b : BlockID) : b.isZero = true ↔ b = zero := by
  obtain ⟨hash, total, phash⟩ := b
  simp [isZero, zero, PartSetHeader.isZero, PartSetHeader.zero]

theorem wellFormed_of_isComplete {b : BlockID} (h : b.isComplete = true) : b.WellFormed := by
  simp only [isComplete, Bool.decide_and, Bool.and_eq_true, decide_eq_true_eq] at h
  refine .inr ⟨.inr h.1, ?_, h.2.2⟩
  intro h0
  simp [h0] at h

theorem WellFormed.length_key {b : BlockID} (h : b.WellFormed) :
    b.key.length = 0 ∧ b = zero ∨ (36 ≤ b.key.length ∧ b.key.length ≤ 40) ∧ b.hash.length = 0 ∨
      (68 ≤ b.key.length ∧ b.key.length ≤ 72) ∧ b.hash.length = hashSize := by
  obtain rfl | ⟨hhash, hcomplete⟩ := h
  · exact .inl ⟨rfl, rfl⟩
  have hlen := hcomplete.length_marshal
  right
  rw [key, length_append]
  obtain h0 | h32 := hhash
  · left
    omega
  · right
    rw [hashSize] at h32 ⊢
    omega

theorem WellFormed.eq_of_key_eq {a b : BlockID} (ha : a.WellFormed) (hb : b.WellFormed)
    (hkey : a.key = b.key) : a = b := by
  have hsame : a.hash.length = b.hash.length → a = b := by
    intro hlen
    obtain ⟨hhash, hmarshal⟩ := append_inj hkey hlen
    have hheader := PartSetHeader.marshal_injective hmarshal
    cases a
    cases b
    simp_all
  have hlen := congrArg length hkey
  obtain ⟨h0, rfl⟩ | ⟨h1, h1'⟩ | ⟨h1, h1'⟩ := ha.length_key <;>
    obtain ⟨h0', rfl⟩ | ⟨h2, h2'⟩ | ⟨h2, h2'⟩ := hb.length_key
  all_goals first | rfl | exact hsame (h1'.trans h2'.symm) | omega

end BlockID

def maxVotesCount : Nat := 10000

/-- The checks of `BlockIDFromProto` on what was decoded. -/
def blockIDFromProto (blockID : BlockID) : Except String Unit := do
  blockID.partSetHeader.validateBasic
  blockID.validateBasic

variable {ε α β : Type} {f : α → Except ε β}

@[simp] theorem ok_bind {a : α} : (.ok a >>= f) = f a := rfl

@[simp] theorem error_bind {e : ε} : (.error e >>= f) = .error e := rfl

theorem except_bind_eq_ok {x : Except ε α} {b : β} :
    (x >>= f) = .ok b ↔ ∃ a, x = .ok a ∧ f a = .ok b := by
  cases x <;> simp [bind, Except.bind]

theorem mapError_eq_ok {ε ε' α : Type} {x : Except ε α} {f : ε → ε'} {a : α} :
    x.mapError f = .ok a ↔ x = .ok a := by
  cases x <;> simp [Except.mapError]

@[simp] theorem check_bind_eq_ok {ε α : Type} {x : Except ε Unit} {f : Unit → Except ε α} {a : α} :
    (x >>= f) = .ok a ↔ x = .ok () ∧ f () = .ok a := by
  cases x <;> simp [bind, Except.bind]

end CelestiaCore
