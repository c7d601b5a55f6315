import Mathlib

/-!
# Threads over a shared state

Threads that share a state take turns call by call. `Obeys` says what a thread does under an
assumption on the answers it gets. -/
namespace Program
open Relation List

inductive Thread (E : Type) (Answer : E → Type) (α : Type) where
  | done (a : α)
  | call (e : E) (next : Answer e → Thread E Answer α)

namespace Thread
variable {E : Type} {Answer : E → Type} {α β : Type}

def bind : Thread E Answer α → (α → Thread E Answer β) → Thread E Answer β
  | done a, f => f a
  | call e next, f => call e fun a => (next a).bind f

instance : Monad (Thread E Answer) where
  pure := done
  bind := bind

def perform (e : E) : Thread E Answer (Answer e) := call e done

/-- Under the assumption on the answers, the thread makes only calls that it may make, and what it
returns satisfies the postcondition. -/
def Obeys (assume : ∀ e, Answer e → Prop) (may : E → Prop) (post : α → Prop) :
    Thread E Answer α → Prop
  | done a => post a
  | call e next => may e ∧ ∀ a, assume e a → (next a).Obeys assume may post

variable {assume : ∀ e, Answer e → Prop} {may : E → Prop} {post : α → Prop} {post' : β → Prop}

theorem Obeys.intro (t : Thread E Answer α) : t.Obeys assume (fun _ => True) fun _ => True := by
  induction t with
  | done => trivial
  | call e next ih => exact ⟨trivial, fun a _ => ih a⟩

theorem Obeys.perform {e : E} {post : Answer e → Prop} (hmay : may e)
    (hpost : ∀ a, assume e a → post a) :
    (perform e : Thread E Answer (Answer e)).Obeys assume may post :=
  ⟨hmay, hpost⟩

variable {t : Thread E Answer α}

theorem Obeys.weaken {post' : α → Prop} (h : t.Obeys assume may post)
    (hpost : ∀ a, post a → post' a) : t.Obeys assume may post' := by
  induction t with
  | done a => exact hpost a h
  | call e next ih => exact ⟨h.1, fun a ha => ih a (h.2 a ha)⟩

theorem Obeys.bind {f : α → Thread E Answer β}
    (h : t.Obeys assume may fun a => (f a).Obeys assume may post') :
    (t >>= f).Obeys assume may post' := by
  induction t with
  | done => exact h
  | call e next ih => exact ⟨h.1, fun a ha => ih a (h.2 a ha)⟩

theorem Obeys.seq {f : α → Thread E Answer β}
    (h : t.Obeys assume may fun _ => True) (hf : ∀ a, (f a).Obeys assume may post') :
    (t >>= f).Obeys assume may post' :=
  Obeys.bind (h.weaken fun a _ => hf a)

theorem Obeys.ite {p : Prop} [Decidable p] {t u : Thread E Answer α}
    (ht : p → t.Obeys assume may post) (hu : ¬p → u.Obeys assume may post) :
    (if p then t else u).Obeys assume may post := by
  split_ifs with hp
  · exact ht hp
  · exact hu hp

end Thread

/-- A shared state and the threads over it. -/
structure World (σ E : Type) (Answer : E → Type) (α : Type) where
  state : σ
  threads : List (Thread E Answer α)

namespace World
variable {σ E : Type} {Answer : E → Type} {α : Type}

/-- A thread makes its next call, if the guard lets it, or a new one starts. `handle` says which
answers a call may get and what it makes of the state. -/
inductive Step (handle : ∀ e, σ → Answer e → σ → Prop) (starts : Thread E Answer α → Prop)
    (guard : World σ E Answer α → E → Prop) : World σ E Answer α → World σ E Answer α → Prop where
  | run {w : World σ E Answer α} (i : ℕ) {e : E} {next : Answer e → Thread E Answer α}
      {a : Answer e} {s : σ} (hthread : w.threads[i]? = some (.call e next)) (hguard : guard w e)
      (hanswer : handle e w.state a s) :
      Step handle starts guard w ⟨s, w.threads.set i (next a)⟩
  | spawn {w : World σ E Answer α} {t : Thread E Answer α} (hstart : starts t) :
      Step handle starts guard w ⟨w.state, w.threads ++ [t]⟩

variable {handle : ∀ e, σ → Answer e → σ → Prop} {starts : Thread E Answer α → Prop}
  {guard : World σ E Answer α → E → Prop}

variable {assume : ∀ e, Answer e → Prop} {may : E → Prop} {post : α → Prop}
  {w w' : World σ E Answer α} (h : Step handle starts guard w w')
  (hassume : ∀ e a s, handle e w.state a s → assume e a)
include h hassume

/-- What holds of a thread goes on to hold of it while the answers it gets are as assumed. -/
theorem Step.obeys {i : ℕ} {t : Thread E Answer α}
    (ht : w.threads[i]? = some t) (hobeys : t.Obeys assume may post) :
    ∃ t', w'.threads[i]? = some t' ∧ t'.Obeys assume may post := by
  have hlt : i < w.threads.length := (List.getElem?_eq_some_iff.1 ht).1
  cases h with
  | run j hthread hguard hanswer =>
    by_cases hij : j = i
    · subst hij
      obtain rfl := Option.some.inj (ht.symm.trans hthread)
      refine ⟨_, getElem?_set_self hlt, ?_⟩
      exact hobeys.2 _ (hassume _ _ _ hanswer)
    · exact ⟨t, by rw [getElem?_set_ne hij, ht], hobeys⟩
  | spawn => exact ⟨t, by rw [getElem?_append_left hlt, ht], hobeys⟩

theorem Step.forall_obeys (hstarts : ∀ t, starts t → t.Obeys assume may post)
    (hall : ∀ t ∈ w.threads, t.Obeys assume may post) :
    ∀ t ∈ w'.threads, t.Obeys assume may post := by
  cases h with
  | run j hthread hguard hanswer =>
    intro t ht
    rcases mem_or_eq_of_mem_set ht with ht | rfl
    · exact hall t ht
    · exact (hall _ (mem_of_getElem? hthread)).2 _ (hassume _ _ _ hanswer)
  | spawn hstart =>
    intro t ht
    rcases mem_append.1 ht with ht | ht
    · exact hall t ht
    · rw [mem_singleton.1 ht]
      exact hstarts _ hstart

end World

end Program
