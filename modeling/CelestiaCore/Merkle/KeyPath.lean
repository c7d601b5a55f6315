import CelestiaCore.Merkle.Proof

/-!
# Key paths

`crypto/merkle/proof_key_path.go`, with the escapes of path segments that `net/url` writes; a string
is its bytes.
-/
namespace CelestiaCore.Merkle
open Wire List

inductive KeyEncoding where
  | url
  | hex
  deriving DecidableEq, Repr

structure Key where
  name : Bytes
  enc : KeyEncoding
  deriving DecidableEq, Repr

abbrev KeyPath := List Key

def upperhex (n : UInt8) : UInt8 := if n < 10 then 48 + n else 55 + n

def unhex (c : UInt8) : Option UInt8 :=
  if 48 ≤ c ∧ c ≤ 57 then some (c - 48)
  else if 97 ≤ c ∧ c ≤ 102 then some (c - 87)
  else if 65 ≤ c ∧ c ≤ 70 then some (c - 55)
  else none

/-- Not of a letter, a digit or one of `-_.~$&+:=@`. -/
def shouldEscape (c : UInt8) : Bool :=
  ¬(97 ≤ c ∧ c ≤ 122 ∨ 65 ≤ c ∧ c ≤ 90 ∨ 48 ≤ c ∧ c ≤ 57 ∨
    c ∈ [45, 95, 46, 126, 36, 38, 43, 58, 61, 64])

def sprintHex (name : Bytes) : Bytes :=
  name.flatMap fun c => [upperhex (c / 16), upperhex (c % 16)]

def pathEscape (name : Bytes) : Bytes :=
  name.flatMap fun c =>
    if shouldEscape c then [37, upperhex (c / 16), upperhex (c % 16)] else [c]

def Key.part (key : Key) : Bytes :=
  match key.enc with
  | .url => pathEscape key.name
  | .hex => 120 :: 58 :: sprintHex key.name

def KeyPath.string (pth : KeyPath) : Bytes :=
  pth.flatMap fun key => 47 :: key.part

def decodePair (a b : UInt8) : Option UInt8 := do
  let high ← unhex a
  let low ← unhex b
  some (high * 16 + low)

/-- `hex.DecodeString`. -/
def decodeString : Bytes → Option Bytes
  | [] => some []
  | [_] => none
  | a :: b :: rest => do
    let c ← decodePair a b
    (decodeString rest).map (c :: ·)

def pathUnescape : Bytes → Option Bytes
  | [] => some []
  | 37 :: a :: b :: rest => do
    let c ← decodePair a b
    (pathUnescape rest).map (c :: ·)
  | c :: rest => if c = 37 then none else (pathUnescape rest).map (c :: ·)

inductive KeyPathError where
  | noSlash
  | hexPart (i : Nat) (part : Bytes)
  | urlPart (i : Nat) (part : Bytes)
  deriving DecidableEq, Repr

def decodePart (i : Nat) (part : Bytes) : Except KeyPathError Bytes :=
  if [120, 58] <+: part then
    match decodeString (part.drop 2) with
    | none => .error (.hexPart i part)
    | some key => .ok key
  else
    match pathUnescape part with
    | none => .error (.urlPart i part)
    | some key => .ok key

def decodeParts : Nat → List Bytes → Except KeyPathError (List Bytes)
  | _, [] => .ok []
  | i, part :: parts => do
    let key ← decodePart i part
    let keys ← decodeParts (i + 1) parts
    .ok (key :: keys)

def keyPathToKeys : Bytes → Except KeyPathError (List Bytes)
  | [] => .error .noSlash
  | c :: path => if c ≠ 47 then .error .noSlash else decodeParts 0 (path.splitOn 47)

theorem decodePair_upperhex (c : UInt8) :
    decodePair (upperhex (c / 16)) (upperhex (c % 16)) = some c := by
  revert c
  decide +kernel

theorem slash_ne_upperhex (c : UInt8) : 47 ≠ upperhex (c / 16) ∧ 47 ≠ upperhex (c % 16) := by
  revert c
  decide +kernel

theorem ne_of_not_shouldEscape {c : UInt8} : shouldEscape c = false → c ≠ 37 ∧ c ≠ 47 := by
  revert c
  decide +kernel

theorem decodeString_sprintHex (name : Bytes) : decodeString (sprintHex name) = some name := by
  induction name with
  | nil => rfl
  | cons c name ih =>
    rw [sprintHex] at ih ⊢
    simp [decodeString, decodePair_upperhex, ih]

theorem pathUnescape_pathEscape (name : Bytes) : pathUnescape (pathEscape name) = some name := by
  induction name with
  | nil => rfl
  | cons c name ih =>
    rw [pathEscape] at ih ⊢
    cases hc : shouldEscape c with
    | true => simp [hc, pathUnescape, decodePair_upperhex, ih]
    | false => simp [hc, pathUnescape, (ne_of_not_shouldEscape hc).1, ih]

theorem slash_notMem_part (key : Key) : 47 ∉ key.part := by
  obtain ⟨name, _ | _⟩ := key
  · intro hmem
    obtain ⟨c, -, hc⟩ := mem_flatMap.1 hmem
    cases hesc : shouldEscape c with
    | true => simp [hesc, slash_ne_upperhex] at hc
    | false => exact (ne_of_not_shouldEscape hesc).2 (by simpa [hesc, eq_comm] using hc)
  · simp [Key.part, sprintHex, slash_ne_upperhex]

theorem mark_prefix_pathEscape {name : Bytes} (hmark : [120, 58] <+: pathEscape name) :
    [120, 58] <+: name := by
  obtain ⟨rest, hrest⟩ := hmark
  -- reading the escaped name back leaves the two bytes as they are
  have hname := pathUnescape_pathEscape name
  rw [← hrest] at hname
  obtain ⟨more, -, rfl⟩ : ∃ more, pathUnescape rest = some more ∧ 120 :: 58 :: more = name := by
    simpa [pathUnescape] using hname
  simp

theorem decodeString_spec {bs key : Bytes} (h : decodeString bs = some key) :
    bs.length = 2 * key.length ∧ 37 ∉ bs := by
  induction bs using decodeString.induct generalizing key with
  | case1 => simp_all [decodeString]
  | case2 => simp [decodeString] at h
  | case3 a b rest ih =>
    simp only [decodeString, Option.bind_eq_bind, Option.bind_eq_some_iff,
      Option.map_eq_some_iff] at h
    obtain ⟨c, hpair, key, hkey, rfl⟩ := h
    obtain ⟨hlen, hmem⟩ := ih hkey
    have ha : 37 ≠ a := by
      rintro rfl
      simp [decodePair, unhex] at hpair
    have hb : 37 ≠ b := by
      rintro rfl
      simp [decodePair, unhex] at hpair
    exact ⟨by simp [hlen]; omega, by simp [ha, hb, hmem]⟩

theorem length_pathEscape {name : Bytes} (h : 37 ∉ pathEscape name) :
    (pathEscape name).length = name.length := by
  induction name with
  | nil => rfl
  | cons c name ih =>
    rw [pathEscape, flatMap_cons, ← pathEscape] at h ⊢
    split at h
    · simp at h
    next hc => simpa [hc] using ih fun hmem => h (mem_append_right _ hmem)

/-- A key with the URL encoding that starts with the mark is read as one of fewer bytes, or not at
all. -/
theorem decodePart_part (key : Key) (i : Nat) : decodePart i key.part = .ok key.name ↔
    (key.enc = .url → ¬[120, 58] <+: key.name) := by
  obtain ⟨name, _ | _⟩ := key
  · by_cases hmark : [120, 58] <+: name
    · obtain ⟨rest, rfl⟩ := hmark
      have hpart : pathEscape ([120, 58] ++ rest) = 120 :: 58 :: pathEscape rest := by
        simp [pathEscape, shouldEscape]
      have hshort : decodeString (pathEscape rest) ≠ some ([120, 58] ++ rest) := by
        intro h
        obtain ⟨hlen, hmem⟩ := decodeString_spec h
        simp [length_pathEscape hmem] at hlen
        omega
      simp only [Key.part, hpart, decodePart]
      cases h : decodeString (pathEscape rest) <;> simp_all
    · have hpre := mt mark_prefix_pathEscape hmark
      simp [decodePart, Key.part, hpre, pathUnescape_pathEscape, hmark]
  · simp [decodePart, Key.part, decodeString_sprintHex]

theorem decodeParts_part (pth : KeyPath) (i : Nat) :
    decodeParts i (pth.map Key.part) = .ok (pth.map Key.name) ↔
      ∀ key ∈ pth, key.enc = .url → ¬[120, 58] <+: key.name := by
  induction pth generalizing i with
  | nil => simp [decodeParts]
  | cons key pth ih =>
    rw [forall_mem_cons, ← decodePart_part key i, ← ih (i + 1)]
    cases hkey : decodePart i key.part with
    | error e => simp [decodeParts, hkey]
    | ok name =>
      cases hrest : decodeParts (i + 1) (pth.map Key.part) with
      | error e => simp [decodeParts, hkey, hrest]
      | ok names => simp [decodeParts, hkey, hrest]

theorem KeyPath.string_eq {pth : KeyPath} (hne : pth ≠ []) :
    pth.string = 47 :: [47].intercalate (pth.map Key.part) := by
  induction pth with
  | nil => exact absurd rfl hne
  | cons key pth ih =>
    cases pth with
    | nil => simp [string]
    | cons next pth =>
      rw [string, flatMap_cons, ← string, ih (by simp)]
      simp [intercalate]

/-- A key path is read back unless one of its URL-encoded keys starts as a hexadecimal one does. -/
theorem keyPathToKeys_string_iff {pth : KeyPath} (hne : pth ≠ []) :
    keyPathToKeys pth.string = .ok (pth.map Key.name) ↔
      ∀ key ∈ pth, key.enc = .url → ¬[120, 58] <+: key.name := by
  have hparts : ∀ part ∈ pth.map Key.part, (47 : UInt8) ∉ part := by
    simpa using fun key _ => slash_notMem_part key
  rw [KeyPath.string_eq hne, keyPathToKeys, splitOn_intercalate 47 hparts (by simpa)]
  simpa using decodeParts_part pth 0

theorem keyPathToKeys_string_mixed :
    keyPathToKeys (KeyPath.string [⟨[97, 47, 58], .url⟩, ⟨[120, 58], .hex⟩]) =
        .ok [[97, 47, 58], [120, 58]] ∧
      keyPathToKeys (KeyPath.string [⟨[97], .hex⟩, ⟨[120, 58, 122], .url⟩]) ≠
        .ok [[97], [120, 58, 122]] :=
  ⟨(keyPathToKeys_string_iff (by decide)).2 (by decide),
    fun h => absurd ((keyPathToKeys_string_iff (by decide)).1 h) (by decide)⟩

theorem keyPathToKeys_string_marked : keyPathToKeys (KeyPath.string [⟨[120, 58, 52, 49], .url⟩]) =
    .ok [[65]] := by
  decide +kernel

end CelestiaCore.Merkle
