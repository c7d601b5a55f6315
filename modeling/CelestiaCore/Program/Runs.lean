import Mathlib

/-!
# Programs that keep their state when they fail

`Runs` says which steps a program over `EStateM` takes, what holds if it returns and in which states
it may fail, with one rule for each way programs are put together. -/
namespace Program
open Relation

variable {ε σ α β : Type}

variable {p : EStateM ε σ Unit} {s t : σ}

theorem run_tryFinally_of_ok (d : EStateM ε σ Unit)
    (h : p.run s = .ok () t) : (tryFinally p d).run s = d.run t := by
  simp only [EStateM.run] at h
  simp only [tryFinally, MonadFinally.tryFinally', EStateM.run, Functor.map, EStateM.map, h]
  cases d t <;> rfl

theorem run_tryFinally_of_error (d : EStateM ε σ Unit) {e : ε} (h : p.run s = .error e t) :
    (tryFinally p d).run s =
      match d.run t with
      | .ok _ u => .error e u
      | .error e' u => .error e' u := by
  simp only [EStateM.run] at h
  simp only [tryFinally, MonadFinally.tryFinally', EStateM.run, Functor.map, EStateM.map, h]
  cases d t <;> rfl

/-- The steps a program may take, the steps it may have been stopped in the middle of when it
failed, and the states in which it may fail with an error. -/
structure Behaviour (σ ε : Type) where
  step : σ → σ → Prop
  stop : σ → σ → Prop
  fault : σ → ε → Prop
  stop_of_step : ∀ {s t}, step s t → stop s t

namespace Behaviour
variable {B : Behaviour σ ε}

theorem stops_of_steps (h : ReflTransGen B.step s t) : ReflTransGen B.stop s t :=
  ReflTransGen.mono (fun _ _ => B.stop_of_step) s t h

/-- What a result must be after a run from `s`. -/
def Allows (B : Behaviour σ ε) (s : σ) (Q : α → σ → Prop) : EStateM.Result ε σ α → Prop
  | .ok a t => ReflTransGen B.step s t ∧ Q a t
  | .error e t => ReflTransGen B.stop s t ∧ ∃ u, ReflTransGen B.step s u ∧ B.fault u e

theorem Allows.trans {Q : α → σ → Prop} {r : EStateM.Result ε σ α}
    (hst : ReflTransGen B.step s t) (h : B.Allows t Q r) : B.Allows s Q r := by
  cases r with
  | ok a u => exact ⟨hst.trans h.1, h.2⟩
  | error e u =>
    obtain ⟨hstop, v, hv, hfault⟩ := h
    exact ⟨(stops_of_steps hst).trans hstop, v, hst.trans hv, hfault⟩

end Behaviour

/-- From `s` the program takes steps of `B`; if it returns, `Q` holds of result and state, and if it
fails, `B` has that fault in the state. -/
def Runs (B : Behaviour σ ε) (p : EStateM ε σ α) (s : σ) (Q : α → σ → Prop) : Prop :=
  B.Allows s Q (p.run s)

namespace Runs
variable {B : Behaviour σ ε} {p : EStateM ε σ α} {f : α → EStateM ε σ β} {s : σ}
  {Q : α → σ → Prop} {R : β → σ → Prop}

theorem of_ok {a : α} {t : σ} (h : p.run s = .ok a t) (hst : ReflTransGen B.step s t)
    (hQ : Q a t) : Runs B p s Q := by
  rw [Runs, h]
  exact ⟨hst, hQ⟩

theorem of_error {e : ε} {t u : σ} (h : p.run s = .error e t) (hst : ReflTransGen B.stop s t)
    (hsu : ReflTransGen B.step s u) (hfault : B.fault u e) : Runs B p s Q := by
  rw [Runs, h]
  exact ⟨hst, u, hsu, hfault⟩

theorem pure {a : α} (h : Q a s) : Runs B (pure a) s Q :=
  of_ok rfl .refl h

theorem throw {e : ε} (h : B.fault s e) : Runs B (throw e : EStateM ε σ α) s Q :=
  ⟨.refl, s, .refl, h⟩

theorem weaken {Q' : α → σ → Prop} (h : Runs B p s Q)
    (hQ : ∀ a t, ReflTransGen B.step s t → Q a t → Q' a t) : Runs B p s Q' := by
  unfold Runs at h ⊢
  cases hr : p.run s with
  | ok a t =>
    rw [hr] at h
    exact ⟨h.1, hQ a t h.1 h.2⟩
  | error e t =>
    rw [hr] at h
    exact h

theorem bind (hp : Runs B p s Q)
    (hf : ∀ a t, ReflTransGen B.step s t → Q a t → Runs B (f a) t R) : Runs B (p >>= f) s R := by
  unfold Runs at hp ⊢
  rw [EStateM.run_bind]
  cases hr : p.run s with
  | ok a t =>
    rw [hr] at hp
    exact (hf a t hp.1 hp.2).trans hp.1
  | error e t =>
    rw [hr] at hp
    exact hp

theorem seq {q : EStateM ε σ β} {Q : σ → Prop} (hp : Runs B p s fun _ => Q)
    (hq : ∀ t, ReflTransGen B.step s t → Q t → Runs B q t R) : Runs B (p >>= fun _ => q) s R :=
  hp.bind fun _ t => hq t

theorem get_bind {f : σ → EStateM ε σ β} (h : Runs B (f s) s R) : Runs B (get >>= f) s R :=
  h

theorem modify {g : σ → σ} {Q : Unit → σ → Prop} (hstep : B.step s (g s)) (hQ : Q () (g s)) :
    Runs B (modify g) s Q :=
  ⟨.single hstep, hQ⟩

theorem ite {c : Prop} [Decidable c] {q : EStateM ε σ α} (hp : c → Runs B p s Q)
    (hq : ¬c → Runs B q s Q) : Runs B (if c then p else q) s Q := by
  split_ifs with h
  · exact hp h
  · exact hq h

/-- The rest is only run if the program has not returned before. -/
theorem earlyReturn {c : Prop} [Decidable c] {a : α} (ha : Q a s) (hp : ¬c → Runs B p s Q) :
    Runs B (if c then Pure.pure a else p) s Q :=
  ite (fun _ => .pure ha) hp

theorem onlyIf {c : Prop} [Decidable c] {a : α} (ha : Q a s) (hp : c → Runs B p s Q) :
    Runs B (if c then p else Pure.pure a) s Q :=
  ite hp fun _ => .pure ha

theorem forget (h : Runs B p s Q) : Runs B p s fun _ _ => True :=
  h.weaken fun _ _ _ _ => trivial

/-- A deferred program runs after one that has settled, whether that returned or failed. -/
theorem deferred {p d : EStateM ε σ Unit} {P : σ → Prop}
    {Q : Unit → σ → Prop} (hok : ∀ t, p.run s = .ok () t → ReflTransGen B.step s t ∧ P t)
    (herr : ∀ e t, p.run s = .error e t → ReflTransGen B.step s t ∧ P t ∧ B.fault t e)
    (hd : ∀ t, ReflTransGen B.step s t → P t → Runs B d t Q) : Runs B (tryFinally p d) s Q := by
  unfold Runs
  cases hr : p.run s with
  | ok a t =>
    obtain ⟨hst, hP⟩ := hok t hr
    have h := (hd t hst hP).trans hst
    rw [run_tryFinally_of_ok d hr]
    cases hdt : d.run t with
    | ok b u =>
      rw [hdt] at h
      exact h
    | error e u =>
      rw [hdt] at h
      exact h
  | error e t =>
    obtain ⟨hst, hP, hfault⟩ := herr e t hr
    have h := (hd t hst hP).trans hst
    rw [run_tryFinally_of_error d hr]
    cases hdt : d.run t with
    | ok b u =>
      rw [hdt] at h
      exact ⟨B.stops_of_steps h.1, t, hst, hfault⟩
    | error e' u =>
      rw [hdt] at h
      exact h

end Runs

theorem invariant_of_steps {r : σ → σ → Prop} {I : σ → Prop}
    (hstep : ∀ s t, I s → r s t → I t) (hs : I s) (h : ReflTransGen r s t) : I t := by
  induction h with
  | refl => exact hs
  | tail _ hr ih => exact hstep _ _ ih hr

end Program
