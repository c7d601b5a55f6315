import Mathlib

/-!
# Programs over a durable state

A program reads and writes a state that outlives it, and may be stopped after any of its writes. Its
outcome keeps the state after each write.
-/
namespace Program
open Relation List

/-- The states after each of the writes, in order, and how the program ended. -/
structure Outcome (σ α : Type) where
  trail : List σ
  result : Except String α

def Durable (σ α : Type) := σ → Outcome σ α

namespace Durable
variable {σ α β : Type}

def pure (a : α) : Durable σ α := fun _ => ⟨[], .ok a⟩

/-- The state that a program started in `s` leaves. -/
def final (p : Durable σ α) (s : σ) : σ := (p s).trail.getLastD s

def bind (p : Durable σ α) (f : α → Durable σ β) : Durable σ β := fun s =>
  match (p s).result with
  | .error err => ⟨(p s).trail, .error err⟩
  | .ok a => ⟨(p s).trail ++ (f a (p.final s)).trail, (f a (p.final s)).result⟩

instance : Monad (Durable σ) where
  pure := pure
  bind := bind

def read : Durable σ σ := fun s => ⟨[], .ok s⟩

def write (f : σ → σ) : Durable σ Unit := fun s => ⟨[f s], .ok ()⟩

def fail (err : String) : Durable σ α := fun _ => ⟨[], .error err⟩

def lift : Except String α → Durable σ α
  | .ok a => pure a
  | .error err => fail err

def onPart {τ : Type} (get : τ → σ) (set : σ → τ → τ) (p : Durable σ α) : Durable τ α := fun t =>
  ⟨(p (get t)).trail.map (set · t), (p (get t)).result⟩

/-- Every state after a write satisfies `I`, and if the program returns, `Q` holds at the end. -/
structure Safe (I : σ → Prop) (p : Durable σ α) (s : σ) (Q : α → σ → Prop) : Prop where
  trail : ∀ t ∈ (p s).trail, I t
  returns : ∀ a, (p s).result = .ok a → Q a (p.final s)

variable {I : σ → Prop} {p : Durable σ α} {f : α → Durable σ β} {s : σ} {Q : α → σ → Prop}
  {R : β → σ → Prop}

theorem final_of_forall_eq (h : ∀ t ∈ (p s).trail, t = s) : p.final s = s := by
  rw [final]
  rcases eq_nil_or_concat (p s).trail with hnil | ⟨l, t, hl⟩
  · rw [hnil, getLastD_nil]
  · rw [hl, concat_eq_append] at h ⊢
    rw [getLastD_concat]
    exact h t (mem_append_right _ (mem_singleton_self t))

variable {a : α}

theorem trail_bind_of_ok (h : (p s).result = .ok a) :
    ((p >>= f) s).trail = (p s).trail ++ (f a (p.final s)).trail := by
  simp only [Bind.bind, bind, h]

theorem result_bind_of_ok (h : (p s).result = .ok a) :
    ((p >>= f) s).result = (f a (p.final s)).result := by
  simp only [Bind.bind, bind, h]

theorem mem_trail_bind {t : σ} (h : t ∈ (p s).trail) : t ∈ ((p >>= f) s).trail := by
  cases hres : (p s).result with
  | error err => simpa only [Bind.bind, bind, hres] using h
  | ok a =>
    rw [trail_bind_of_ok hres]
    exact mem_append_left _ h

theorem getLastD_append (l l' : List σ) (s : σ) :
    (l ++ l').getLastD s = l'.getLastD (l.getLastD s) := by
  rcases eq_nil_or_concat l' with rfl | ⟨l', t, rfl⟩
  · rw [append_nil, getLastD_nil]
  · rw [concat_eq_append, ← append_assoc, getLastD_concat, getLastD_concat]

theorem final_bind_of_ok (h : (p s).result = .ok a) :
    (p >>= f).final s = (f a).final (p.final s) := by
  rw [final, trail_bind_of_ok h, getLastD_append]
  rfl

theorem Safe.pure (h : Q a s) : Safe I (Pure.pure a : Durable σ α) s Q where
  trail := nofun
  returns := fun b hb => by
    cases hb
    exact h

theorem Safe.fail {err : String} : Safe I (fail err : Durable σ α) s Q where
  trail := nofun
  returns := fun _ h => absurd h (by simp [Durable.fail])

theorem Safe.write {g : σ → σ} {Q : Unit → σ → Prop} (hI : I (g s)) (hQ : Q () (g s)) :
    Safe I (write g) s Q where
  trail := fun t ht => by
    obtain rfl := mem_singleton.1 ht
    exact hI
  returns := fun _ _ => hQ

theorem Safe.bind (hp : Safe I p s Q) (hf : ∀ a t, Q a t → Safe I (f a) t R) :
    Safe I (p >>= f) s R := by
  cases hres : (p s).result with
  | error err =>
    constructor
    · intro t ht
      simp only [Bind.bind, Durable.bind, hres] at ht
      exact hp.trail t ht
    · intro b hb
      simp [Bind.bind, Durable.bind, hres] at hb
  | ok a =>
    have hrest := hf a _ (hp.returns a hres)
    constructor
    · intro t ht
      rw [trail_bind_of_ok hres, mem_append] at ht
      exact ht.elim (hp.trail t) (hrest.trail t)
    · intro b hb
      rw [result_bind_of_ok hres] at hb
      rw [final_bind_of_ok hres]
      exact hrest.returns b hb

theorem Safe.ite {c : Prop} [Decidable c] {q : Durable σ α} (hp : c → Safe I p s Q)
    (hq : ¬c → Safe I q s Q) : Safe I (if c then p else q) s Q := by
  split_ifs with hc
  · exact hp hc
  · exact hq hc

theorem Safe.read {f : σ → Durable σ β} (h : Safe I (f s) s R) : Safe I (read >>= f) s R :=
  Safe.bind (Q := fun a t => a = s ∧ t = s)
    ⟨nofun, fun a ha => ⟨(Except.ok.inj ha).symm, rfl⟩⟩
    fun a t hat => by
      obtain ⟨rfl, rfl⟩ := hat
      exact h

theorem Safe.congr {q : Durable σ α} (heq : p s = q s) (h : Safe I q s Q) : Safe I p s Q where
  trail := fun t ht => h.trail t (heq ▸ ht)
  returns := fun a ha => by
    rw [final, heq]
    exact h.returns a (heq ▸ ha)

theorem read_bind_apply {f : σ → Durable σ β} : (Durable.read >>= f) s = f s s := rfl

theorem bind_apply_of_ok {trail : List σ} (h : p s = ⟨trail, .ok a⟩) :
    (p >>= f) s = ⟨trail ++ (f a (trail.getLastD s)).trail, (f a (trail.getLastD s)).result⟩ := by
  simp only [Bind.bind, Durable.bind, h, final]

theorem single_bind_apply {t : σ} (h : p s = ⟨[t], .ok a⟩) :
    (p >>= f) s = ⟨t :: (f a t).trail, (f a t).result⟩ := by
  rw [bind_apply_of_ok h]
  rfl

theorem write_bind_apply {g : σ → σ} {f : Unit → Durable σ β} :
    (write g >>= f) s = ⟨g s :: (f () (g s)).trail, (f () (g s)).result⟩ := rfl

variable {e : Except String α}

theorem lift_bind_apply (h : e = .ok a) : (lift e >>= f) s = f a s := by
  subst h
  rfl

theorem lift_bind_error {err : String} (h : e = .error err) : (lift e >>= f) s = fail err s := by
  subst h
  rfl

theorem lift_bind_eq_ok {b : β} (h : ((lift e >>= f) s).result = .ok b) :
    ∃ a, e = .ok a ∧ (lift e >>= f) s = f a s := by
  cases e with
  | error err => cases h
  | ok a => exact ⟨a, rfl, rfl⟩

theorem bind_eq_ok {b : β} (h : ((p >>= f) s).result = .ok b) :
    ∃ a, (p s).result = .ok a ∧ (f a (p.final s)).result = .ok b := by
  cases hres : (p s).result with
  | error err =>
    simp only [Bind.bind, bind, hres] at h
    cases h
  | ok a =>
    rw [result_bind_of_ok hres] at h
    exact ⟨a, rfl, h⟩

def Crash (p : Durable σ α) (s t : σ) : Prop := t = s ∨ t ∈ (p s).trail

theorem crash_final : Crash p s (p.final s) := by
  rw [Crash, final]
  rcases eq_nil_or_concat (p s).trail with hnil | ⟨l, t, hl⟩
  · exact Or.inl (by rw [hnil, getLastD_nil])
  · refine Or.inr ?_
    rw [hl, concat_eq_append, getLastD_concat]
    exact mem_append_right _ (mem_singleton_self t)

end Durable

end Program
