import Mathlib

/-!
# Loops that end by returning

A loop is a step from a state to a next state or to a result, with an invariant and a measure.
-/
namespace Loop

universe u v
variable {σ : Type u} {ρ : Type v} (step : σ → σ ⊕ ρ)

/-- The result of at most `n` steps. -/
def run : ℕ → σ → Option ρ
  | 0, _ => none
  | n + 1, s =>
    match step s with
    | .inl s' => run n s'
    | .inr r => some r

variable {step} {n m : ℕ} {s s' : σ} {r : ρ}

theorem run_of_next (h : step s = .inl s') : run step (n + 1) s = run step n s' := by
  rw [run, h]

theorem run_of_return (h : step s = .inr r) : run step (n + 1) s = some r := by
  rw [run, h]

theorem run_mono (h : run step n s = some r) (hnm : n ≤ m) : run step m s = some r := by
  induction n generalizing m s with
  | zero => simp [run] at h
  | succ n ih =>
    obtain ⟨m, rfl⟩ : ∃ k, m = k + 1 := ⟨m - 1, by omega⟩
    cases hs : step s with
    | inl s' =>
      rw [run_of_next hs] at h ⊢
      exact ih h (by omega)
    | inr r' =>
      rw [run_of_return hs] at h ⊢
      exact h

variable (Inv : σ → Prop) (Post : ρ → Prop)

theorem run_post (hnext : ∀ s s', Inv s → step s = .inl s' → Inv s')
    (hreturn : ∀ s r, Inv s → step s = .inr r → Post r) (hs : Inv s)
    (h : run step n s = some r) : Post r := by
  induction n generalizing s with
  | zero => simp [run] at h
  | succ n ih =>
    cases hstep : step s with
    | inl s' =>
      rw [run_of_next hstep] at h
      exact ih (hnext s s' hs hstep) h
    | inr r' =>
      rw [run_of_return hstep, Option.some.injEq] at h
      exact h ▸ hreturn s r' hs hstep

theorem run_returns (measure : σ → ℕ)
    (hnext : ∀ s s', Inv s → step s = .inl s' → Inv s' ∧ measure s' < measure s) (hs : Inv s)
    (hn : measure s < n) : ∃ r, run step n s = some r := by
  induction n generalizing s with
  | zero => omega
  | succ n ih =>
    cases hstep : step s with
    | inl s' =>
      obtain ⟨hs', hlt⟩ := hnext s s' hs hstep
      rw [run_of_next hstep]
      exact ih hs' (by omega)
    | inr r => exact ⟨r, run_of_return hstep⟩

end Loop
