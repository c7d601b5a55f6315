import Mathlib

/-!
# Trees that split at a power of two

Folding over the tree of splits is the same as pairing neighbours level by level.
-/
namespace PowerSplit
open List

universe u
variable {α : Type u}

/-- The largest power of two below `n`. -/
def splitPoint (n : ℕ) : ℕ := 2 ^ (n - 1).log2

theorem splitPoint_pos (n : ℕ) : 0 < splitPoint n := Nat.two_pow_pos _

theorem splitPoint_lt {n : ℕ} (h : 2 ≤ n) : splitPoint n < n := by
  have := Nat.log2_self_le (n := n - 1) (by omega)
  rw [splitPoint]
  omega

theorem le_two_mul_splitPoint (n : ℕ) : n ≤ 2 * splitPoint n := by
  have := Nat.lt_log2_self (n := n - 1)
  rw [pow_succ] at this
  rw [splitPoint]
  omega

theorem splitPoint_unique {n a : ℕ} (hlt : 2 ^ a < n) (hle : n ≤ 2 * 2 ^ a) :
    splitPoint n = 2 ^ a := by
  rw [splitPoint]
  congr 1
  rw [Nat.log2_eq_iff (by have := Nat.two_pow_pos a; omega), pow_succ]
  omega

theorem splitPoint_half {n : ℕ} (h : 3 ≤ n) : splitPoint n = 2 * splitPoint ((n + 1) / 2) := by
  set m := (n + 1) / 2
  have hlt := splitPoint_lt (n := m) (by omega)
  have hle := le_two_mul_splitPoint m
  have hpow : 2 * splitPoint m = 2 ^ ((m - 1).log2 + 1) := by
    rw [splitPoint, pow_succ, mul_comm]
  rw [hpow]
  refine splitPoint_unique ?_ ?_ <;> rw [← hpow] <;> omega

/-- What holds of short lists and passes from the two halves to the whole holds of every list. -/
theorem split_induction {motive : List α → Prop} (nil : motive []) (single : ∀ x, motive [x])
    (split : ∀ l : List α, 2 ≤ l.length → motive (l.take (splitPoint l.length)) →
      motive (l.drop (splitPoint l.length)) → motive l) (l : List α) : motive l := by
  induction hn : l.length using Nat.strong_induction_on generalizing l with
  | _ n ih =>
    match l, hn with
    | [], _ => exact nil
    | [x], _ => exact single x
    | x :: y :: l, hn =>
      subst hn
      have hlen : 2 ≤ (x :: y :: l).length := by simp
      have hlt := splitPoint_lt hlen
      have hpos := splitPoint_pos (x :: y :: l).length
      refine split _ hlen (ih _ ?_ _ rfl) (ih _ ?_ _ rfl)
      · rw [length_take]
        omega
      · rw [length_drop]
        omega

/-- The fold of an operation over the tree, `e` for the empty list. -/
def fold (e : α) (f : α → α → α) (l : List α) : α :=
  match l with
  | [] => e
  | [x] => x
  | x :: y :: l =>
    f (fold e f ((x :: y :: l).take (splitPoint (x :: y :: l).length)))
      (fold e f ((x :: y :: l).drop (splitPoint (x :: y :: l).length)))
  termination_by l.length
  decreasing_by
  · have := splitPoint_lt (n := (x :: y :: l).length) (by simp)
    rw [length_take]
    omega
  · have := splitPoint_pos (x :: y :: l).length
    simp only [length_drop, length_cons] at *
    omega

section Fold
variable {e : α} {f : α → α → α} {l : List α}

@[simp] theorem fold_nil : fold e f [] = e := by rw [fold]

@[simp] theorem fold_single (x : α) : fold e f [x] = x := by rw [fold]

theorem fold_split (h : 2 ≤ l.length) : fold e f l =
    f (fold e f (l.take (splitPoint l.length))) (fold e f (l.drop (splitPoint l.length))) := by
  match l, h with
  | x :: y :: l, _ => rw [fold]

/-- One level up: neighbours are paired, an odd last one is carried. -/
def pairUp (f : α → α → α) : List α → List α
  | [] => []
  | [x] => [x]
  | x :: y :: l => f x y :: pairUp f l

theorem length_pairUp (f : α → α → α) (l : List α) : (pairUp f l).length = (l.length + 1) / 2 := by
  induction l using pairUp.induct with
  | case1 => simp [pairUp]
  | case2 x => simp [pairUp]
  | case3 x y l ih =>
    simp only [pairUp, length_cons, ih]
    omega

theorem pairUp_append (f : α → α → α) (l l' : List α) (h : l.length % 2 = 0) :
    pairUp f (l ++ l') = pairUp f l ++ pairUp f l' := by
  induction l using pairUp.induct with
  | case1 => simp [pairUp]
  | case2 x => simp at h
  | case3 x y l ih =>
    have heven : l.length % 2 = 0 := by
      simp only [length_cons] at h
      omega
    rw [cons_append, cons_append, pairUp, pairUp, ih heven, cons_append]

theorem fold_pairUp (l : List α) : fold e f (pairUp f l) = fold e f l := by
  induction l using split_induction with
  | nil => simp [pairUp]
  | single => simp [pairUp]
  | split l hlen ihl ihr =>
    rcases Nat.lt_or_ge l.length 3 with hsmall | hlarge
    · match l, hlen, hsmall with
      | [x, y], _, _ =>
        have hone : splitPoint [x, y].length = 1 := splitPoint_unique (a := 0) (by simp) (by simp)
        rw [fold_split (l := [x, y]) (by simp), hone]
        simp [pairUp]
    · set k := splitPoint l.length
      have hhalf := splitPoint_half hlarge
      have hlt := splitPoint_lt hlen
      have htake : (l.take k).length = k := by
        rw [length_take]
        omega
      have hsplit : pairUp f l = pairUp f (l.take k) ++ pairUp f (l.drop k) := by
        conv_lhs => rw [← take_append_drop k l]
        exact pairUp_append f _ _ (by omega)
      have hlen' := length_pairUp f l
      have hpos : (pairUp f (l.take k)).length = splitPoint (pairUp f l).length := by
        rw [length_pairUp, hlen', htake]
        omega
      rw [fold_split (l := pairUp f l) (by omega), ← hpos, hsplit, take_left, drop_left,
        ihl, ihr, fold_split (l := l) hlen]

def paths (e : α) (f : α → α → α) (l : List α) : List (α × List α) :=
  match l with
  | [] => []
  | [x] => [(x, [])]
  | x :: y :: l =>
    let k := splitPoint (x :: y :: l).length
    let left := (x :: y :: l).take k
    let right := (x :: y :: l).drop k
    (paths e f left).map (fun p => (p.1, p.2 ++ [fold e f right])) ++
      (paths e f right).map fun p => (p.1, p.2 ++ [fold e f left])
  termination_by l.length
  decreasing_by
  · have := splitPoint_lt (n := (x :: y :: l).length) (by simp)
    rw [length_take]
    omega
  · have := splitPoint_pos (x :: y :: l).length
    simp only [length_drop, length_cons] at *
    omega

@[simp] theorem paths_nil : paths e f [] = [] := by rw [paths]

@[simp] theorem paths_single (x : α) : paths e f [x] = [(x, [])] := by rw [paths]

theorem paths_split (h : 2 ≤ l.length) : paths e f l =
    (paths e f (l.take (splitPoint l.length))).map
        (fun p => (p.1, p.2 ++ [fold e f (l.drop (splitPoint l.length))])) ++
      (paths e f (l.drop (splitPoint l.length))).map
        fun p => (p.1, p.2 ++ [fold e f (l.take (splitPoint l.length))]) := by
  match l, h with
  | x :: y :: l, _ => rw [paths]

theorem map_fst_paths (l : List α) : (paths e f l).map Prod.fst = l := by
  induction l using split_induction with
  | nil => simp
  | single => simp
  | split l hlen ihl ihr =>
    rw [paths_split hlen, map_append, map_map, map_map]
    have hfst : ∀ (y : α) (ps : List (α × List α)),
        ps.map (Prod.fst ∘ fun p => (p.1, p.2 ++ [y])) = ps.map Prod.fst := fun _ _ => rfl
    rw [hfst, hfst, ihl, ihr, take_append_drop]

end Fold

end PowerSplit
