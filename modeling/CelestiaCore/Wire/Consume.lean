import CelestiaCore.Wire.Field

/-!
# Consuming tagged fields

The readers of `protowire`. A negative count, the report of an error, is `none`.
-/
namespace Wire.Protowire
open Option

@[match_pattern] abbrev varintType : Nat := 0
@[match_pattern] abbrev fixed64Type : Nat := 1
@[match_pattern] abbrev bytesType : Nat := 2
@[match_pattern] abbrev startGroupType : Nat := 3
@[match_pattern] abbrev endGroupType : Nat := 4
@[match_pattern] abbrev fixed32Type : Nat := 5

/-- `ConsumeVarint` from the byte at an index on: the tenth byte must be below 2. -/
def consumeVarintFrom : Nat → Bytes → Option (Nat × Nat)
  | _, [] => none
  | i, y :: b =>
    if i = 9 then if y.toNat < 2 then some (y.toNat, 1) else none
    else if y.toNat < 128 then some (y.toNat, 1)
    else (consumeVarintFrom (i + 1) b).map fun p => (y.toNat - 128 + 128 * p.1, p.2 + 1)

def consumeVarint (b : Bytes) : Option (Nat × Nat) := consumeVarintFrom 0 b

/-- `ConsumeTag`: the number, the type and the count. -/
def consumeTag (b : Bytes) : Option (Nat × Nat × Nat) :=
  match consumeVarint b with
  | none => none
  | some (v, n) => if 2 ^ 31 ≤ v / 8 ∨ v / 8 < 1 then none else some (v / 8, v % 8, n)

def consumeBytes (b : Bytes) : Option (Bytes × Nat) :=
  match consumeVarint b with
  | none => none
  | some (m, n) =>
    if (b.drop n).length < m then none else some ((b.drop n).take m, n + m)

def consumeFixed (size : Nat) (b : Bytes) : Option Nat :=
  if b.length < size then none else some size

theorem consumeVarintFrom_count {i : Nat} {b : Bytes} {v n : Nat}
    (h : consumeVarintFrom i b = some (v, n)) : 0 < n ∧ n ≤ b.length := by
  induction b generalizing i v n with
  | nil => simp [consumeVarintFrom] at h
  | cons y b ih =>
    rw [consumeVarintFrom] at h
    split_ifs at h
    · simp only [some.injEq, Prod.mk.injEq] at h
      simp [← h.2]
    · simp only [some.injEq, Prod.mk.injEq] at h
      simp [← h.2]
    · obtain ⟨⟨w, k⟩, hk, heq⟩ := map_eq_some_iff.1 h
      simp only [Prod.mk.injEq] at heq
      have := ih hk
      rw [List.length_cons]
      omega

theorem consumeTag_eq_some {b : Bytes} {num typ n : Nat} : consumeTag b = some (num, typ, n) ↔
      ∃ v, consumeVarint b = some (v, n) ∧ v / 8 = num ∧ v % 8 = typ ∧ 1 ≤ num ∧ num < 2 ^ 31 := by
  unfold consumeTag
  cases hv : consumeVarint b with
  | none => simp
  | some p =>
    obtain ⟨v, k⟩ := p
    simp only [some.injEq, Prod.mk.injEq]
    split_ifs with hbad
    · simp only [false_iff, not_exists, not_and]
      rintro w ⟨rfl, -⟩ rfl - hone
      omega
    · simp only [some.injEq, Prod.mk.injEq]
      constructor
      · rintro ⟨rfl, rfl, rfl⟩
        exact ⟨v, ⟨rfl, rfl⟩, rfl, rfl, by omega, by omega⟩
      · rintro ⟨w, ⟨rfl, rfl⟩, rfl, rfl, -⟩
        exact ⟨rfl, rfl, rfl⟩

theorem consumeTag_count {b : Bytes} {num typ n : Nat} (h : consumeTag b = some (num, typ, n)) :
    0 < n ∧ n ≤ b.length := by
  obtain ⟨v, hv, -⟩ := consumeTag_eq_some.1 h
  exact consumeVarintFrom_count hv

theorem consumeBytes_eq_some {b v : Bytes} {n : Nat} :
    consumeBytes b = some (v, n) ↔ ∃ m k, consumeVarint b = some (m, k) ∧ m ≤ b.length - k ∧
      (b.drop k).take m = v ∧ k + m = n := by
  unfold consumeBytes
  cases hv : consumeVarint b with
  | none => simp
  | some p =>
    obtain ⟨m, k⟩ := p
    simp only [some.injEq, Prod.mk.injEq, List.length_drop]
    split_ifs with hlong
    · simp only [false_iff, not_exists, not_and]
      rintro m' k' ⟨rfl, rfl⟩ hle
      omega
    · simp only [some.injEq, Prod.mk.injEq]
      constructor
      · rintro ⟨rfl, rfl⟩
        exact ⟨m, k, ⟨rfl, rfl⟩, by omega, rfl, rfl⟩
      · rintro ⟨m', k', ⟨rfl, rfl⟩, -, rfl, rfl⟩
        exact ⟨rfl, rfl⟩

theorem consumeBytes_count {b v : Bytes} {n : Nat} (h : consumeBytes b = some (v, n)) :
    0 < n ∧ n ≤ b.length := by
  obtain ⟨m, k, hk, hm, -, rfl⟩ := consumeBytes_eq_some.1 h
  have := consumeVarintFrom_count hk
  omega

mutual

/-- `consumeFieldValueD`, with the groups that may still be opened. -/
def consumeFieldValueD (num typ : Nat) (b : Bytes) (groups : Nat) : Option Nat :=
  match typ, groups with
  | varintType, _ => (consumeVarint b).map (·.2)
  | fixed64Type, _ => consumeFixed 8 b
  | bytesType, _ => (consumeBytes b).map (·.2)
  | startGroupType, 0 => none
  | startGroupType, groups + 1 => consumeGroup num b groups
  | fixed32Type, _ => consumeFixed 4 b
  | _, _ => none
  termination_by (groups, b.length)

def consumeGroup (num : Nat) (b : Bytes) (groups : Nat) : Option Nat :=
  match _htag : consumeTag b with
  | none => none
  | some (num2, typ2, n) =>
    if typ2 = endGroupType then if num ≠ num2 then none else some n
    else
      match consumeFieldValueD num2 typ2 (b.drop n) groups with
      | none => none
      | some m => (consumeGroup num ((b.drop n).drop m) groups).map (n + m + ·)
  termination_by (groups, b.length)
  decreasing_by
  all_goals
    have := consumeTag_count _htag
    apply Prod.Lex.right
    simp only [List.length_drop]
    omega

end

/-- `protowire.DefaultRecursionLimit`; the depth may be zero. -/
def recursionLimit : Nat := 10000

def consumeFieldValue (num typ : Nat) (b : Bytes) : Option Nat :=
  consumeFieldValueD num typ b (recursionLimit + 1)

end Wire.Protowire
