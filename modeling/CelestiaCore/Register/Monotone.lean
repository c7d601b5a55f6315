import Mathlib

/-!
# Forward-only registers

A register holds one value at a position that only moves forward, and emits the value it holds.
-/
namespace Register
open List

structure State (α β : Type*) where
  last : α
  value : Option β
  log : List (α × β)

section
variable {α β : Type*} [LinearOrder α]

inductive Step : State α β → State α β → Prop
  | advance {s : State α β} {a : α} (b : β) (h : s.last < a) : Step s ⟨a, some b, s.log⟩
  | emit {s : State α β} {b : β} (h : s.value = some b) :
      Step s ⟨s.last, s.value, s.log ++ [(s.last, b)]⟩

abbrev Steps : State α β → State α β → Prop :=
  Relation.ReflTransGen Step

/-- Emitted positions are sorted and bounded by the current one, where only the value held has
been emitted. -/
structure Inv (s : State α β) : Prop where
  sorted : s.log.Pairwise fun x y => x.1 ≤ y.1
  le_last : ∀ x ∈ s.log, x.1 ≤ s.last
  at_last : ∀ x ∈ s.log, x.1 = s.last → s.value = some x.2
  unique : ∀ x ∈ s.log, ∀ y ∈ s.log, x.1 = y.1 → x.2 = y.2

theorem Inv.init (a : α) (v : Option β) : Inv (⟨a, v, []⟩ : State α β) :=
  ⟨List.Pairwise.nil, by simp, by simp, by simp⟩

theorem Inv.step {s s' : State α β} (hs : Inv s) (h : Step s s') : Inv s' := by
  cases h with
  | advance b hlt =>
    refine ⟨hs.sorted, ?_, ?_, hs.unique⟩
    · intro x hx
      exact (hs.le_last x hx).trans hlt.le
    · intro x hx heq
      have hle := hs.le_last x hx
      rw [show x.1 = _ from heq] at hle
      exact absurd hle (not_le.2 hlt)
  | @emit b hb =>
    refine ⟨?_, ?_, ?_, ?_⟩
    · rw [pairwise_append]
      refine ⟨hs.sorted, pairwise_singleton _ _, ?_⟩
      intro x hx y hy
      rw [mem_singleton.1 hy]
      exact hs.le_last x hx
    · intro x hx
      rcases mem_append.1 hx with hx | hx
      · exact hs.le_last x hx
      · rw [mem_singleton.1 hx]
    · intro x hx heq
      rcases mem_append.1 hx with hx | hx
      · exact hs.at_last x hx heq
      · rw [mem_singleton.1 hx, hb]
    · have hlast : ∀ x ∈ s.log, x.1 = s.last → x.2 = b := by
        intro x hx heq
        exact Option.some.inj ((hs.at_last x hx heq).symm.trans hb)
      intro x hx y hy heq
      rcases mem_append.1 hx with hx | hx <;> rcases mem_append.1 hy with hy | hy
      · exact hs.unique x hx y hy heq
      · rw [mem_singleton.1 hy] at heq ⊢
        exact hlast x hx heq
      · rw [mem_singleton.1 hx] at heq ⊢
        exact (hlast y hy heq.symm).symm
      · rw [mem_singleton.1 hx, mem_singleton.1 hy]

theorem Inv.steps {s s' : State α β} (hs : Inv s) (h : Steps s s') : Inv s' := by
  induction h with
  | refl => exact hs
  | tail _ hstep ih => exact ih.step hstep

end

end Register
