import CelestiaCore.Wire.Consume

/-!
# Generated decoders

The decoders that `gogoproto` generates, and how they agree with `protowire`. The cursor into the
bytes is the rest of the bytes, and all errors are `none`. -/
namespace Wire.Generated
open Protowire Option Nat

/-- The loop that reads a varint, with the bits of every byte shifted into a word of 64 bits. -/
def readVarintFrom : Nat → Nat → Bytes → Option (Nat × Nat)
  | _, _, [] => none
  | shift, acc, y :: b =>
    if 64 ≤ shift then none
    else
      let acc := acc ||| (y.toNat % 128) <<< shift % 2 ^ 64
      if y.toNat < 128 then some (acc, 1)
      else (readVarintFrom (shift + 7) acc b).map fun p => (p.1, p.2 + 1)

def readVarint (b : Bytes) : Option (Nat × Nat) := readVarintFrom 0 0 b

def readLength (b : Bytes) : Option (Nat × Nat) :=
  match readVarint b with
  | none => none
  | some (len, n) => if 2 ^ 63 ≤ len then none else some (len, n)

def readDelimited (b : Bytes) : Option (Bytes × Nat) :=
  match readLength b with
  | none => none
  | some (len, n) =>
    if (b.drop n).length < len then none else some ((b.drop n).take len, n + len)

/-- The `switch` over the wire type in a generated skip: the bytes to skip and the new depth. -/
def skipValue (wireType depth : Nat) (b : Bytes) : Option (Nat × Nat) :=
  match wireType with
  | 0 => (readVarint b).map fun p => (p.2, depth)
  | 1 => some (8, depth)
  | 2 => (readLength b).map fun p => (p.2 + p.1, depth)
  | 3 => some (0, depth + 1)
  | 4 => if depth = 0 then none else some (0, depth - 1)
  | 5 => some (4, depth)
  | _ => none

variable {b : Bytes} {v n : Nat}

theorem readVarintFrom_count {shift acc : Nat}
    (h : readVarintFrom shift acc b = some (v, n)) : 0 < n ∧ n ≤ b.length := by
  induction b generalizing shift acc v n with
  | nil => simp [readVarintFrom] at h
  | cons y b ih =>
    rw [readVarintFrom] at h
    dsimp only at h
    split_ifs at h
    · simp only [some.injEq, Prod.mk.injEq] at h
      simp [← h.2]
    obtain ⟨⟨w, k⟩, hk, heq⟩ := map_eq_some_iff.1 h
    simp only [Prod.mk.injEq] at heq
    have := ih hk
    rw [List.length_cons]
    omega

/-- The loop of a generated skip: it reads tags until the groups it has opened are closed. -/
def skipFrom (depth : Nat) (b : Bytes) : Option Nat :=
  match _hread : readVarint b with
  | none => none
  | some (wire, n) =>
    match skipValue (wire % 8) depth (b.drop n) with
    | none => none
    | some (m, depth) =>
      if depth = 0 then some (n + m)
      else (skipFrom depth (b.drop (n + m))).map (n + m + ·)
  termination_by b.length
  decreasing_by
    have := readVarintFrom_count _hread
    rw [List.length_drop]
    omega

def skip (b : Bytes) : Option Nat := skipFrom 0 b

theorem skip_pos {k : Nat} (h : skip b = some k) : 0 < k ∧ 0 < b.length := by
  unfold skip at h
  rw [skipFrom] at h
  split at h
  · cases h
  case h_2 wire n hread =>
    have hcount := readVarintFrom_count hread
    split at h
    · cases h
    split_ifs at h
    · cases h
      omega
    · obtain ⟨k', -, rfl⟩ := map_eq_some_iff.1 h
      omega

/-- What a message does with a field number: nothing, an error, or a value and its bytes. -/
inductive Step (M : Type) where
  | unknown
  | error
  | value (m : M) (n : Nat)

/-- A generated `Unmarshal`: `field` is the `switch` over the field number. -/
def unmarshal {M : Type} (field : M → Nat → Nat → Bytes → Step M) (m : M) (b : Bytes) : Option M :=
  if b = [] then some m
  else
    match _hread : readVarint b with
    | none => none
    | some (wire, n) =>
      -- the field number is an `int32`
      let fieldNum := wire / 8 % 2 ^ 32
      if wire % 8 = 4 then none
      else if fieldNum = 0 ∨ 2 ^ 31 ≤ fieldNum then none
      else
        match field m fieldNum (wire % 8) (b.drop n) with
        | .error => none
        | .value m k => unmarshal field m (b.drop (n + k))
        | .unknown =>
          match _hskip : skip b with
          | none => none
          | some k => if b.length < k then none else unmarshal field m (b.drop k)
  termination_by b.length
  decreasing_by
  · have := readVarintFrom_count _hread
    rw [List.length_drop]
    omega
  · have := skip_pos _hskip
    rw [List.length_drop]
    omega

section Agreement

theorem readVarintFrom_of_consume {i acc : Nat} (hi : i ≤ 9)
    (hacc : acc < 2 ^ (7 * i)) (h : consumeVarintFrom i b = some (v, n)) :
    v < 2 ^ (64 - 7 * i) ∧ readVarintFrom (7 * i) acc b = some (acc + v * 2 ^ (7 * i), n) := by
  induction b generalizing i acc v n with
  | nil => simp [consumeVarintFrom] at h
  | cons y b ih =>
    have hor : ∀ x, acc ||| x <<< (7 * i) = acc + x * 2 ^ (7 * i) := by
      intro x
      rw [Nat.or_comm, ← Nat.shiftLeft_add_eq_or_of_lt hacc, Nat.shiftLeft_eq, add_comm]
    have hpow : (2 : Nat) ^ 64 = 2 ^ (64 - 7 * i) * 2 ^ (7 * i) := by
      rw [← pow_add]
      congr 1
      omega
    -- a byte whose bits fit the word is added at its place
    have hadd : ∀ x, x < 2 ^ (64 - 7 * i) →
        acc ||| x <<< (7 * i) % 2 ^ 64 = acc + x * 2 ^ (7 * i) := by
      intro x hx
      rw [mod_eq_of_lt, hor]
      rw [shiftLeft_eq, hpow]
      exact mul_lt_mul_of_pos_right hx (by positivity)
    rw [consumeVarintFrom] at h
    rw [readVarintFrom, if_neg (by omega)]
    dsimp only
    split_ifs at h with hlast htwo hsmall
    · subst hlast
      cases h
      rw [if_pos (by omega), mod_eq_of_lt (by omega : y.toNat < 128), hadd _ htwo]
      exact ⟨htwo, rfl⟩
    · cases h
      have hfit : y.toNat < 2 ^ (64 - 7 * i) :=
        hsmall.trans_le (Nat.pow_le_pow_right (i := 7) (by omega) (by omega) : 2 ^ 7 ≤ _)
      rw [if_pos hsmall, mod_eq_of_lt hsmall, hadd _ hfit]
      exact ⟨hfit, rfl⟩
    · obtain ⟨⟨w, k⟩, hk, heq⟩ := map_eq_some_iff.1 h
      cases heq
      have hy : y.toNat % 128 = y.toNat - 128 := by
        have := y.toNat_lt
        omega
      have hfit : y.toNat - 128 < 2 ^ (64 - 7 * i) := by
        have := y.toNat_lt
        have hle : 2 ^ 7 ≤ 2 ^ (64 - 7 * i) := Nat.pow_le_pow_right (by omega) (by omega)
        omega
      have hnext : (2 : Nat) ^ (7 * (i + 1)) = 128 * 2 ^ (7 * i) := by
        rw [mul_add, pow_add, mul_one]
        ring
      have hacc' : acc + (y.toNat - 128) * 2 ^ (7 * i) < 2 ^ (7 * (i + 1)) := by
        have := y.toNat_lt
        have hle : (y.toNat - 128) * 2 ^ (7 * i) ≤ 127 * 2 ^ (7 * i) :=
          mul_le_mul_right _ (by omega)
        omega
      obtain ⟨hw, hrec⟩ := ih (by omega) hacc' hk
      have hwide : (2 : Nat) ^ (64 - 7 * i) = 128 * 2 ^ (64 - 7 * (i + 1)) := by
        rw [show 64 - 7 * i = 7 + (64 - 7 * (i + 1)) by omega, pow_add]
        rfl
      refine ⟨by omega, ?_⟩
      rw [if_neg hsmall, hy, hadd _ hfit, show 7 * i + 7 = 7 * (i + 1) by ring, hrec]
      simp only [map_some, some.injEq, Prod.mk.injEq, and_true]
      rw [hnext]
      ring

theorem readVarint_of_consume (h : consumeVarint b = some (v, n)) :
    v < 2 ^ 64 ∧ readVarint b = some (v, n) := by
  obtain ⟨hv, hread⟩ := readVarintFrom_of_consume (zero_le _) (show 0 < 2 ^ (7 * 0) by simp) h
  refine ⟨hv, ?_⟩
  unfold readVarint
  simpa using hread

theorem readLength_of_consume (h : consumeVarint b = some (v, n))
    (hv : v < 2 ^ 63) : readLength b = some (v, n) := by
  unfold readLength
  rw [(readVarint_of_consume h).2]
  dsimp only
  rw [if_neg (by omega)]

theorem readDelimited_of_consume {b v : Bytes} {n : Nat} (hb : b.length < 2 ^ 63)
    (h : consumeBytes b = some (v, n)) : readDelimited b = some (v, n) := by
  obtain ⟨m, k, hk, hm, rfl, rfl⟩ := consumeBytes_eq_some.1 h
  unfold readDelimited
  rw [readLength_of_consume hk (by omega)]
  dsimp only
  rw [if_neg (by rw [List.length_drop]; omega)]

def resume (depth n : Nat) (b : Bytes) : Option Nat :=
  if depth = 0 then some n else (skipFrom depth (b.drop n)).map (n + ·)

def skipAfter (typ depth : Nat) (b : Bytes) : Option Nat :=
  match skipValue typ depth b with
  | none => none
  | some (m, depth) => resume depth m b

theorem resume_drop {depth n m : Nat} :
    (resume depth m (b.drop n)).map (n + ·) = resume depth (n + m) b := by
  unfold resume
  split_ifs
  · rfl
  rw [List.drop_drop, map_map]
  congr 1
  funext k
  simp only [Function.comp_apply]
  omega

theorem skipFrom_tag {num typ n depth : Nat} (h : consumeTag b = some (num, typ, n)) :
    skipFrom depth b = (skipAfter typ depth (b.drop n)).map (n + ·) := by
  obtain ⟨v, hv, -, rfl, -⟩ := consumeTag_eq_some.1 h
  rw [skipFrom, (readVarint_of_consume hv).2]
  unfold skipAfter
  dsimp only
  cases skipValue (v % 8) depth (b.drop n) with
  | none => rfl
  | some p => exact resume_drop.symm

/-- What `protowire` consumes as a value is skipped as one, at any depth. -/
def SkipsValues (groups : Nat) : Prop :=
  ∀ num typ b n, b.length < 2 ^ 63 → consumeFieldValueD num typ b groups = some n →
    n ≤ b.length ∧ ∀ depth, skipAfter typ depth b = resume depth n b

/-- What `protowire` consumes as a group is skipped as one. -/
def SkipsGroups (groups : Nat) : Prop :=
  ∀ num b n, b.length < 2 ^ 63 → consumeGroup num b groups = some n →
    n ≤ b.length ∧ ∀ depth, skipFrom (depth + 1) b = resume depth n b

theorem skipsGroups_of_skipsValues {groups : Nat} (h : SkipsValues groups) :
    SkipsGroups groups := by
  intro num b
  -- each round of the loop takes a field off the front
  induction hlen : b.length using Nat.strong_induction_on generalizing b with
  | _ len ih =>
    intro n hb hgroup
    subst hlen
    rw [consumeGroup] at hgroup
    split at hgroup
    · cases hgroup
    case h_2 num2 typ2 k htag =>
      have hk := consumeTag_count htag
      have hdrop : (b.drop k).length = b.length - k := List.length_drop
      split at hgroup
      case isTrue hend =>
        split_ifs at hgroup
        cases hgroup
        refine ⟨hk.2, fun depth => ?_⟩
        rw [skipFrom_tag htag, hend]
        unfold skipAfter skipValue
        rw [if_neg (by omega)]
        exact resume_drop
      case isFalse hend =>
        split at hgroup
        · cases hgroup
        case h_2 m hvalue =>
          obtain ⟨n', hrest, rfl⟩ := map_eq_some_iff.1 hgroup
          obtain ⟨hm, hskip⟩ := h _ _ _ _ (by omega) hvalue
          have hdrop' : ((b.drop k).drop m).length = b.length - k - m := by
            rw [List.length_drop, hdrop]
          obtain ⟨hn', hloop⟩ := ih _ (by omega) _ rfl _ (by omega) hrest
          refine ⟨by omega, fun depth => ?_⟩
          rw [skipFrom_tag htag, hskip]
          unfold resume
          rw [if_neg (succ_ne_zero depth), hloop, resume_drop, resume_drop, ← add_assoc]
          rfl

theorem skipsValues (groups : Nat) : SkipsValues groups := by
  -- the values that open no group do not depend on the groups left
  have hflat : ∀ groups num typ b n, typ ≠ startGroupType → b.length < 2 ^ 63 →
      consumeFieldValueD num typ b groups = some n →
      n ≤ b.length ∧ ∀ depth, skipAfter typ depth b = resume depth n b := by
    intro groups num typ b n htyp hb h
    unfold consumeFieldValueD at h
    split at h
    · obtain ⟨⟨v, k⟩, hv, rfl⟩ := map_eq_some_iff.1 h
      refine ⟨(consumeVarintFrom_count hv).2, fun depth => ?_⟩
      simp only [skipAfter, skipValue, (readVarint_of_consume hv).2, map_some]
    · unfold consumeFixed at h
      split_ifs at h with hlen
      cases h
      exact ⟨not_lt.1 hlen, fun depth => rfl⟩
    · obtain ⟨⟨v, k⟩, hv, rfl⟩ := map_eq_some_iff.1 h
      refine ⟨(consumeBytes_count hv).2, fun depth => ?_⟩
      obtain ⟨m, j, hj, hm, -, rfl⟩ := consumeBytes_eq_some.1 hv
      simp only [skipAfter, skipValue, readLength_of_consume hj (by omega), map_some]
    · cases h
    · exact absurd rfl htyp
    · unfold consumeFixed at h
      split_ifs at h with hlen
      cases h
      exact ⟨not_lt.1 hlen, fun depth => rfl⟩
    · cases h
  induction groups with
  | zero =>
    intro num typ b n hb h
    by_cases htyp : typ = startGroupType
    · subst htyp
      rw [consumeFieldValueD] at h
      cases h
    · exact hflat 0 num typ b n htyp hb h
  | succ groups ih =>
    intro num typ b n hb h
    by_cases htyp : typ = startGroupType
    · subst htyp
      rw [consumeFieldValueD] at h
      obtain ⟨hn, hskip⟩ := skipsGroups_of_skipsValues ih num b n hb h
      refine ⟨hn, fun depth => ?_⟩
      show resume (depth + 1) 0 b = _
      unfold resume
      rw [if_neg (succ_ne_zero depth), List.drop_zero, hskip]
      simp only [zero_add, map_id_fun', id_eq]
      rfl
    · exact hflat (groups + 1) num typ b n htyp hb h

theorem skip_of_consume {num typ n m : Nat} (hb : b.length < 2 ^ 63)
    (htag : consumeTag b = some (num, typ, n))
    (hvalue : consumeFieldValue num typ (b.drop n) = some m) :
    skip b = some (n + m) ∧ n + m ≤ b.length := by
  have hn := consumeTag_count htag
  have hdrop : (b.drop n).length = b.length - n := List.length_drop
  obtain ⟨hm, hskip⟩ := skipsValues _ num typ (b.drop n) m (by omega) hvalue
  refine ⟨?_, by omega⟩
  unfold skip
  rw [skipFrom_tag htag, hskip]
  rfl

theorem ne_endGroup_of_consume {num typ m : Nat}
    (h : consumeFieldValue num typ b = some m) : typ ≠ endGroupType := by
  rintro rfl
  unfold consumeFieldValue consumeFieldValueD at h
  cases h

end Agreement

end Wire.Generated
