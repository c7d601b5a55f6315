import Mathlib.Tactic.SplitIfs

/-!
# Computations that may fail

With what a computation over `Except` may fail and what it returns, with one rule for each way
computations are put together. -/
namespace Program

variable {ε α β : Type} {E : ε → Prop} {x y : Except ε α} {P Q : α → Prop}

/-- The computation fails only with an error in `E`, and returns only what is in `Q`. -/
def Meets (E : ε → Prop) (x : Except ε α) (Q : α → Prop) : Prop :=
  match x with
  | .ok a => Q a
  | .error e => E e

namespace Meets

theorem of_ok {a : α} (h : Meets E x Q) (hx : x = .ok a) : Q a := by
  rw [hx] at h
  exact h

theorem of_error {e : ε} (h : Meets E x Q) (hx : x = .error e) : E e := by
  rw [hx] at h
  exact h

theorem mono {E' : ε → Prop} (h : Meets E x P) (hE : ∀ e, E e → E' e) (hPQ : ∀ a, P a → Q a) :
    Meets E' x Q := by
  cases x with
  | ok a => exact hPQ a h
  | error e => exact hE e h

theorem weaken (h : Meets E x P) (hPQ : ∀ a, P a → Q a) : Meets E x Q :=
  h.mono (fun _ => id) hPQ

theorem bind {f : α → Except ε β} {R : β → Prop} (hx : Meets E x P)
    (hf : ∀ a, P a → Meets E (f a) R) : Meets E (x >>= f) R := by
  cases x with
  | ok a => exact hf a hx
  | error e => exact hx

theorem ite {c : Prop} [Decidable c] (hx : c → Meets E x Q) (hy : ¬c → Meets E y Q) :
    Meets E (if c then x else y) Q := by
  split_ifs with hc
  · exact hx hc
  · exact hy hc

/-- A check that fails with an error of its own. -/
theorem guard {c : Prop} [Decidable c] {e : ε} (he : E e) (hy : ¬c → Meets E y Q) :
    Meets E (if c then .error e else y) Q :=
  .ite (fun _ => he) hy

end Meets

theorem eq_ok_of_isSome {a : α} (h : x.toOption.isSome = true) : x = .ok (x.toOption.getD a) := by
  cases x with
  | error e => cases h
  | ok a => rfl

theorem exists_ok [DecidablePred P] (h : x.toOption.any (P ·) = true) : ∃ a, x = .ok a ∧ P a := by
  cases x with
  | error e => cases h
  | ok a => exact ⟨a, rfl, of_decide_eq_true h⟩

end Program
