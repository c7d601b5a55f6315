import CelestiaCore.Wire.Field

/-!
# The keys of snapshots

`snapshot.Key` of `statesync/snapshots.go`.
-/
namespace CelestiaCore.StateSync
open Wire List

/-- A `snapshot`, without what the light client adds to it. -/
structure Snapshot where
  height : UInt64
  format : UInt32
  chunks : UInt32
  hash : Bytes
  metadata : Bytes
  deriving DecidableEq

/-- A number as `%v` writes it. -/
def decimal (n : ℕ) : Bytes := (Nat.toDigits 10 n).map fun c => UInt8.ofNat c.toNat

/-- What `Key` writes to its hasher: the header `%v:%v:%v`, the hash and the metadata. -/
def Snapshot.preimage (s : Snapshot) : Bytes :=
  decimal s.height.toNat ++ 58 :: (decimal s.format.toNat ++
    58 :: (decimal s.chunks.toNat ++ (s.hash ++ s.metadata)))

theorem digit_bounds {n : ℕ} {c : Char} (h : c ∈ Nat.toDigits 10 n) :
    48 ≤ c.toNat ∧ c.toNat ≤ 57 := by
  have hdigit := Nat.isDigit_of_mem_toDigits (by decide) le_rfl h
  simpa [Char.isDigit, UInt32.le_iff_toNat_le] using hdigit

theorem map_decimal (n : ℕ) : (decimal n).map (fun b => Char.ofNat b.toNat) =
    Nat.toDigits 10 n := by
  rw [decimal, map_map]
  refine (map_congr_left fun c hc => ?_).trans (map_id _)
  rw [Function.comp_apply, toNat_ofNat_lt (by have := digit_bounds hc; omega), Char.ofNat_toNat]
  rfl

theorem decimal_injective : Function.Injective decimal := by
  intro n m h
  have hdigits := map_decimal n
  rw [h, map_decimal] at hdigits
  rw [← Nat.ofDigitChars_ten_toDigits (n := n), ← hdigits, Nat.ofDigitChars_ten_toDigits]

theorem decimal_colon_inj {n m : ℕ} {u v : Bytes}
    (h : decimal n ++ 58 :: u = decimal m ++ 58 :: v) :
    n = m ∧ u = v := by
  have hcolon : ∀ n, 58 ∉ decimal n := by
    intro n hmem
    obtain ⟨c, hc, heq⟩ := mem_map.1 hmem
    have hbounds := digit_bounds hc
    have hnat : c.toNat = 58 := by
      rw [← toNat_ofNat_lt (show c.toNat < 256 by omega), heq]
      rfl
    omega
  have hlen := congrArg (idxOf 58) h
  simp only [idxOf_append, hcolon, if_false, idxOf_cons_self] at hlen
  obtain ⟨hn, hrest⟩ := append_inj h (by simpa using hlen)
  exact ⟨decimal_injective hn, tail_eq_of_cons_eq hrest⟩

/-- The chunk count of `s'` goes on with digits that stand at the front of the hash and the metadata
of `s`, and the rest of the two is the same. -/
def Snapshot.Moved (s s' : Snapshot) : Prop :=
  ∃ digits, decimal s'.chunks.toNat = decimal s.chunks.toNat ++ digits ∧
    s.hash ++ s.metadata = digits ++ (s'.hash ++ s'.metadata)

theorem preimage_eq_iff (s s' : Snapshot) : s.preimage = s'.preimage ↔
    s.height = s'.height ∧ s.format = s'.format ∧ (s.Moved s' ∨ s'.Moved s) := by
  constructor
  · intro h
    obtain ⟨hheight, h⟩ := decimal_colon_inj h
    obtain ⟨hformat, h⟩ := decimal_colon_inj h
    exact ⟨UInt64.toNat_inj.1 hheight, UInt32.toNat_inj.1 hformat, append_eq_append_iff.1 h⟩
  · rintro ⟨hheight, hformat, hmoved⟩
    rw [Snapshot.preimage, Snapshot.preimage, hheight, hformat, append_eq_append_iff.2 hmoved]

/-- The exact pairs of snapshots that are told apart. -/
theorem preimage_ne_iff (s s' : Snapshot) : s.preimage ≠ s'.preimage ↔
    s.height ≠ s'.height ∨ s.format ≠ s'.format ∨ ¬s.Moved s' ∧ ¬s'.Moved s := by
  rw [Ne, preimage_eq_iff, not_and_or, not_and_or, not_or]

/-- A byte moved from the metadata to the hash, or a digit from the hash to the chunk count. -/
theorem preimage_moved :
    Snapshot.preimage ⟨10, 1, 1, [7], [8]⟩ = Snapshot.preimage ⟨10, 1, 1, [7, 8], []⟩ ∧
      Snapshot.preimage ⟨10, 1, 1, [50, 7], [8]⟩ = Snapshot.preimage ⟨10, 1, 12, [7, 8], []⟩ := by
  decide

end CelestiaCore.StateSync
