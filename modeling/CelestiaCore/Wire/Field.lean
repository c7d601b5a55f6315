import Mathlib

/-!
# Tagged wire format

Varints, little-endian words, tagged fields and delimited messages, each writer with its reader.
-/
namespace Wire
open List Nat

abbrev Bytes := List UInt8

/-- Base-128 digits of `n`, least significant first, with at most `fuel` continuation bytes. -/
def uvarintAux : Nat → Nat → Bytes
  | 0, n => [UInt8.ofNat n]
  | fuel + 1, n =>
    if n < 128 then [UInt8.ofNat n]
    else UInt8.ofNat (n % 128 + 128) :: uvarintAux fuel (n / 128)

def uvarint (n : Nat) : Bytes :=
  uvarintAux n n

def readUvarint : Bytes → Option (Nat × Bytes)
  | [] => none
  | b :: rest =>
    if b.toNat < 128 then some (b.toNat, rest)
    else (readUvarint rest).map fun p => (b.toNat - 128 + 128 * p.1, p.2)

/-- The low `k` bytes of `n`, least significant first. -/
def leBytes : Nat → Nat → Bytes
  | 0, _ => []
  | k + 1, n => UInt8.ofNat (n % 256) :: leBytes k (n / 256)

def leValue : Bytes → Nat
  | [] => 0
  | b :: rest => b.toNat + 256 * leValue rest

inductive Value where
  | varint (n : UInt64)
  | fixed64 (n : UInt64)
  | bytes (b : Bytes)
  | fixed32 (n : UInt32)
  deriving DecidableEq, Repr

structure Field where
  num : Nat
  value : Value
  deriving DecidableEq, Repr

def Value.wireType : Value → Nat
  | .varint _ => 0
  | .fixed64 _ => 1
  | .bytes _ => 2
  | .fixed32 _ => 5

def delimit (body : Bytes) : Bytes :=
  uvarint body.length ++ body

def undelimit (bs : Bytes) : Option (Bytes × Bytes) := do
  let (len, rest) ← readUvarint bs
  if len ≤ rest.length then some (rest.take len, rest.drop len) else none

def Value.payload : Value → Bytes
  | .varint n => uvarint n.toNat
  | .fixed64 n => leBytes 8 n.toNat
  | .bytes b => delimit b
  | .fixed32 n => leBytes 4 n.toNat

def Field.tag (f : Field) : Nat :=
  8 * f.num + f.value.wireType

def Field.encode (f : Field) : Bytes :=
  uvarint f.tag ++ f.value.payload

def encodeFields (fs : List Field) : Bytes :=
  fs.flatMap Field.encode

def readWord (k : Nat) (bs : Bytes) : Option (Nat × Bytes) :=
  if k ≤ bs.length then some (leValue (bs.take k), bs.drop k) else none

def readValue (wireType : Nat) (bs : Bytes) : Option (Value × Bytes) :=
  match wireType with
  | 0 => (readUvarint bs).map fun p => (.varint (UInt64.ofNat p.1), p.2)
  | 1 => (readWord 8 bs).map fun p => (.fixed64 (UInt64.ofNat p.1), p.2)
  | 2 => (undelimit bs).map fun p => (.bytes p.1, p.2)
  | 5 => (readWord 4 bs).map fun p => (.fixed32 (UInt32.ofNat p.1), p.2)
  | _ => none

def readField (bs : Bytes) : Option (Field × Bytes) := do
  let (tag, rest) ← readUvarint bs
  let (value, rest) ← readValue (tag % 8) rest
  some (⟨tag / 8, value⟩, rest)

def parseAux : Nat → Bytes → Option (List Field)
  | _, [] => some []
  | 0, _ :: _ => none
  | fuel + 1, b :: bs => do
    let (f, rest) ← readField (b :: bs)
    let fs ← parseAux fuel rest
    some (f :: fs)

def parse (bs : Bytes) : Option (List Field) :=
  parseAux bs.length bs

theorem toNat_ofNat_lt {n : Nat} (h : n < 256) : (UInt8.ofNat n).toNat = n := by
  simp [mod_eq_of_lt h]

theorem readUvarint_uvarintAux (fuel n : Nat) (hn : n ≤ fuel) (rest : Bytes) :
    readUvarint (uvarintAux fuel n ++ rest) = some (n, rest) := by
  induction fuel generalizing n with
  | zero =>
    have : n = 0 := by omega
    subst this
    rfl
  | succ fuel ih =>
    unfold uvarintAux
    split_ifs with h
    · simp [readUvarint, toNat_ofNat_lt (show n < 256 by omega), h]
    · have hb := toNat_ofNat_lt (show n % 128 + 128 < 256 by omega)
      have hrec := ih (n / 128) (by omega)
      simp only [cons_append, readUvarint, hb, hrec, Option.map_some]
      rw [if_neg (by omega)]
      have hval : n % 128 + 128 - 128 + 128 * (n / 128) = n := by omega
      rw [hval]

@[simp] theorem readUvarint_uvarint (n : Nat) (rest : Bytes) :
    readUvarint (uvarint n ++ rest) = some (n, rest) :=
  readUvarint_uvarintAux n n le_rfl rest

theorem uvarint_of_lt {n : Nat} (h : n < 128) : uvarint n = [UInt8.ofNat n] := by
  unfold uvarint
  cases n with
  | zero => rfl
  | succ n => simp [uvarintAux, h]

theorem uvarintAux_ne_nil (fuel n : Nat) : uvarintAux fuel n ≠ [] := by
  cases fuel with
  | zero => exact cons_ne_nil _ _
  | succ fuel =>
    unfold uvarintAux
    split_ifs <;> exact cons_ne_nil _ _

theorem uvarint_ne_nil (n : Nat) : uvarint n ≠ [] := uvarintAux_ne_nil n n

theorem length_uvarintAux_le_iff (k fuel n : Nat) (hn : n ≤ fuel) :
    (uvarintAux fuel n).length ≤ k + 1 ↔ n < 128 ^ (k + 1) := by
  induction fuel generalizing k n with
  | zero => simp [uvarintAux, le_zero.1 hn]
  | succ fuel ih =>
    unfold uvarintAux
    split_ifs with h
    · simp [h.trans_le (le_self_pow k.succ_ne_zero 128)]
    · cases k with
      | zero => simp [uvarintAux_ne_nil, h]
      | succ k =>
        rw [length_cons, add_le_add_iff_right, ih k (n / 128) (by omega),
          div_lt_iff_lt_mul (by norm_num), ← pow_succ]

theorem length_uvarint_le (k n : Nat) (h : n < 128 ^ (k + 1)) : (uvarint n).length ≤ k + 1 :=
  (length_uvarintAux_le_iff k n n le_rfl).2 h

theorem length_uvarint_mono {n m : Nat} (h : n ≤ m) : (uvarint n).length ≤ (uvarint m).length := by
  obtain ⟨k, hk⟩ := exists_eq_add_one.2 (length_pos_of_ne_nil (uvarint_ne_nil m))
  have hm := (length_uvarintAux_le_iff k m m le_rfl).1 hk.le
  exact hk ▸ length_uvarint_le k n (h.trans_lt hm)

@[simp] theorem leBytes_length (k n : Nat) : (leBytes k n).length = k := by
  induction k generalizing n with
  | zero => rfl
  | succ k ih => simp [leBytes, ih]

theorem leValue_leBytes (k n : Nat) (h : n < 256 ^ k) : leValue (leBytes k n) = n := by
  induction k generalizing n with
  | zero => simp at h; simp [leBytes, leValue, h]
  | succ k ih =>
    have hdiv : n / 256 < 256 ^ k := by
      rw [div_lt_iff_lt_mul (by norm_num)]
      rwa [pow_succ] at h
    simp only [leBytes, leValue, ih _ hdiv, toNat_ofNat_lt (mod_lt n (by norm_num))]
    omega

theorem readWord_leBytes (k n : Nat) (h : n < 256 ^ k) (rest : Bytes) :
    readWord k (leBytes k n ++ rest) = some (n, rest) := by
  have hk : k ≤ (leBytes k n ++ rest).length := by simp
  have htake : (leBytes k n ++ rest).take k = leBytes k n := by
    simp
  have hdrop : (leBytes k n ++ rest).drop k = rest := by
    simp
  simp only [readWord, hk, if_true, htake, hdrop, leValue_leBytes k n h]

@[simp] theorem undelimit_delimit (body rest : Bytes) :
    undelimit (delimit body ++ rest) = some (body, rest) := by
  simp [undelimit, delimit, append_assoc]

@[simp] theorem undelimit_delimit_self (body : Bytes) :
    undelimit (delimit body) = some (body, []) := by
  simpa using undelimit_delimit body []

theorem delimit_injective : Function.Injective delimit := by
  intro a b h
  simpa using congrArg undelimit h

@[simp] theorem readValue_payload (v : Value) (rest : Bytes) :
    readValue v.wireType (v.payload ++ rest) = some (v, rest) := by
  cases v with
  | varint => simp [readValue, Value.wireType, Value.payload]
  | fixed64 n =>
    have h : n.toNat < 256 ^ 8 := by simpa using n.toNat_lt
    simp [readValue, Value.wireType, Value.payload, readWord_leBytes 8 _ h]
  | bytes => simp [readValue, Value.wireType, Value.payload]
  | fixed32 n =>
    have h : n.toNat < 256 ^ 4 := by simpa using n.toNat_lt
    simp [readValue, Value.wireType, Value.payload, readWord_leBytes 4 _ h]

theorem Value.wireType_lt (v : Value) : v.wireType < 8 := by
  cases v <;> simp [Value.wireType]

@[simp] theorem readField_encode (f : Field) (rest : Bytes) :
    readField (f.encode ++ rest) = some (f, rest) := by
  have hlt := f.value.wireType_lt
  have hmod : f.tag % 8 = f.value.wireType := by unfold Field.tag; omega
  have hdiv : f.tag / 8 = f.num := by unfold Field.tag; omega
  simp [readField, Field.encode, append_assoc, hmod, hdiv]

theorem Field.encode_ne_nil (f : Field) : f.encode ≠ [] := by
  simp [Field.encode, uvarint_ne_nil]

theorem parseAux_encodeFields (fs : List Field) (fuel : Nat)
    (h : (encodeFields fs).length ≤ fuel) : parseAux fuel (encodeFields fs) = some fs := by
  induction fs generalizing fuel with
  | nil => cases fuel <;> rfl
  | cons f fs ih =>
    have hsplit : encodeFields (f :: fs) = f.encode ++ encodeFields fs := by
      simp [encodeFields]
    have hpos : 0 < f.encode.length := length_pos_of_ne_nil f.encode_ne_nil
    rw [hsplit, length_append] at h
    obtain ⟨fuel, rfl⟩ : ∃ k, fuel = k + 1 := ⟨fuel - 1, by omega⟩
    obtain ⟨b, bs, hbs⟩ := exists_cons_of_ne_nil
      (show f.encode ++ encodeFields fs ≠ [] by simp [f.encode_ne_nil])
    have hread := readField_encode f (encodeFields fs)
    rw [hbs] at hread
    rw [hsplit, hbs, parseAux, hread]
    simp [ih fuel (by omega)]

@[simp] theorem parse_encodeFields (fs : List Field) : parse (encodeFields fs) = some fs :=
  parseAux_encodeFields fs _ le_rfl

theorem encodeFields_injective : Function.Injective encodeFields := by
  intro a b h
  have ha := parse_encodeFields a
  rw [h, parse_encodeFields] at ha
  exact (Option.some.inj ha).symm

theorem Field.head_encode (f : Field) (h : f.tag < 128) :
    f.encode = UInt8.ofNat f.tag :: f.value.payload := by
  simp [Field.encode, uvarint_of_lt h]

/-! Messages with default fields omitted; a setter is folded over the fields to read them. -/

def optVarint (num : Nat) (n : UInt64) : List Field :=
  if n = 0 then [] else [⟨num, .varint n⟩]

def optFixed64 (num : Nat) (n : UInt64) : List Field :=
  if n = 0 then [] else [⟨num, .fixed64 n⟩]

def optBytes (num : Nat) (b : Bytes) : List Field :=
  if b = [] then [] else [⟨num, .bytes b⟩]

theorem length_bytes_le_iff {n : Nat} {b c : Bytes} : (encodeFields [⟨n, .bytes b⟩]).length ≤
    (encodeFields [⟨n, .bytes c⟩]).length ↔ b.length ≤ c.length := by
  simp only [encodeFields, flatMap_singleton, Field.encode, Field.tag, Value.wireType,
    Value.payload, delimit, length_append]
  rcases le_or_gt b.length c.length with h | h
  · have := length_uvarint_mono h
    omega
  · have := length_uvarint_mono h.le
    omega

theorem length_optBytes_mono {n : Nat} {b c : Bytes} (h : b.length ≤ c.length) :
    (encodeFields (optBytes n b)).length ≤ (encodeFields (optBytes n c)).length := by
  unfold optBytes
  split_ifs with hb hc hc
  · exact le_rfl
  · exact zero_le _
  · simp [hc, hb] at h
  · exact length_bytes_le_iff.2 h

def optMessage (num : Nat) (body : Option Bytes) : List Field :=
  match body with
  | none => []
  | some b => [⟨num, .bytes b⟩]

/-- Reads a message body into `init`, one field at a time. -/
def unmarshalInto {M : Type} (set : M → Field → Option M) (init : M) (bs : Bytes) : Option M := do
  let fs ← parse bs
  fs.foldlM set init

variable {num : Nat}

section Fold
variable {M : Type} {set : M → Field → Option M}

@[simp] theorem unmarshalInto_encodeFields (init : M) (fs : List Field) :
    unmarshalInto set init (encodeFields fs) = fs.foldlM set init := by
  simp [unmarshalInto]

variable {m : M}

/-- Where a default changes nothing, a field left out is a field set. -/
theorem foldlM_ite {c : Prop} [Decidable c] {f : Field} (h : c → set m f = some m) :
    (if c then [] else [f]).foldlM set m = set m f := by
  split_ifs with hc
  · exact (h hc).symm
  · simp

@[simp] theorem foldlM_optVarint {n : UInt64} (h : set m ⟨num, .varint 0⟩ = some m) :
    (optVarint num n).foldlM set m = set m ⟨num, .varint n⟩ := foldlM_ite fun hn => hn ▸ h

@[simp] theorem foldlM_optFixed64 {n : UInt64} (h : set m ⟨num, .fixed64 0⟩ = some m) :
    (optFixed64 num n).foldlM set m = set m ⟨num, .fixed64 n⟩ := foldlM_ite fun hn => hn ▸ h

@[simp] theorem foldlM_optBytes {b : Bytes} (h : set m ⟨num, .bytes []⟩ = some m) :
    (optBytes num b).foldlM set m = set m ⟨num, .bytes b⟩ := foldlM_ite fun hb => hb ▸ h

end Fold

theorem mem_optFixed64 {n : UInt64} {f : Field} :
    f ∈ optFixed64 num n ↔ n ≠ 0 ∧ f = ⟨num, .fixed64 n⟩ := by
  unfold optFixed64
  split_ifs with h <;> simp [h]

theorem mem_optBytes {b : Bytes} {f : Field} :
    f ∈ optBytes num b ↔ b ≠ [] ∧ f = ⟨num, .bytes b⟩ := by
  unfold optBytes
  split_ifs with h <;> simp [h]

theorem eq_of_delimit_eq_cons {body rest : Bytes} {x : UInt8} (hx : x.toNat < 128)
    (h : delimit body = x :: rest) : body.length = x.toNat ∧ body = rest := by
  have hread := readUvarint_uvarint body.length body
  rw [show uvarint body.length ++ body = x :: rest from h] at hread
  simp only [readUvarint, hx, if_true, Option.some.injEq, Prod.mk.injEq] at hread
  exact ⟨hread.1.symm, hread.2.symm⟩

end Wire
