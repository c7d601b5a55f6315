import CelestiaCore.Privval.Signing

/-!
# No double signing across crashes

A run with crashes and restarts refines a forward-only register that holds the last sign bytes.
-/
namespace CelestiaCore.Privval
open Wire List

/-- A signature handed to the caller. -/
structure Released where
  position : Position
  signBytes : Option Bytes
  signature : Bytes

/-- A running validator: its state in memory, the state on disk, and what it has released. -/
structure Signer where
  mem : LastSignState
  disk : LastSignState
  released : List Released

inductive Event where
  | request (r : Request)
  /-- A crash at a point where the request in flight, if any, has saved nothing. -/
  | crash
  /-- A crash after `saveSigned` returned and before the caller saw the signature. -/
  | crashAfterSave (r : Request)

namespace Signer

def initial : Signer := ⟨.initial, .initial, []⟩

def restart (s : Signer) : Signer :=
  { s with mem := s.disk.reload }

def save (s : Signer) : Option LastSignState → Signer
  | none => s
  | some lss => { s with mem := lss, disk := lss }

def release (s : Signer) (a : Answer) : Signer :=
  if a.err = none then
    { s with released := s.released ++ [⟨a.position, a.signBytes, a.signature⟩] }
  else s

def step (key : PrivKey) (s : Signer) : Event → Signer
  | .request r =>
    match r.run key s.mem with
    | .error _ => s.restart
    | .ok a => (s.save a.saved).release a
  | .crash => s.restart
  | .crashAfterSave r =>
    match r.run key s.mem with
    | .error _ => s.restart
    | .ok a => (s.save a.saved).restart

def run (key : PrivKey) (events : List Event) : Signer :=
  events.foldl (step key) initial

structure Inv (key : PrivKey) (s : Signer) : Prop where
  mem : s.mem.Valid key
  disk : s.disk.Valid key
  position : s.mem.position = s.disk.position
  signBytes : s.mem.signBytes = s.disk.signBytes
  released : ∀ x ∈ s.released, ∃ b, x.signBytes = some b ∧ key.verify b x.signature = true

def abs (s : Signer) : Register.State Position (Option Bytes) :=
  ⟨s.disk.position, s.disk.signBytes.map some, s.released.map fun x => (x.position, x.signBytes)⟩

section
variable {key : PrivKey} {s : Signer}

theorem Inv.initial (key : PrivKey) : Inv key Signer.initial :=
  ⟨.initial key, .initial key, rfl, rfl, by simp [Signer.initial]⟩

theorem Inv.restart (hs : Inv key s) : Inv key s.restart :=
  ⟨hs.disk.reload, hs.disk, rfl, rfl, hs.released⟩

@[simp] theorem abs_restart (s : Signer) : s.restart.abs = s.abs := rfl

theorem Inv.save {lss : LastSignState} (hs : Inv key s) (h : lss.Valid key) :
    Inv key (s.save (some lss)) :=
  ⟨h, h, rfl, rfl, hs.released⟩

theorem Inv.release {a : Answer} {b : Bytes} (hs : Inv key s) (hb : a.signBytes = some b)
    (hverify : key.verify b a.signature = true) : Inv key (s.release a) := by
  unfold Signer.release
  split_ifs with herr
  · refine ⟨hs.mem, hs.disk, hs.position, hs.signBytes, ?_⟩
    intro x hx
    rcases mem_append.1 hx with hx | hx
    · exact hs.released x hx
    · rw [mem_singleton.1 hx]
      exact ⟨b, hb, hverify⟩
  · exact hs

theorem save_refines {a : Answer} (hs : Inv key s) (h : Outcome key s.mem a) :
    Inv key (s.save a.saved) ∧ Register.Steps s.abs (s.save a.saved).abs := by
  cases h with
  | failed herr hsaved =>
    rw [hsaved]
    exact ⟨hs, .refl⟩
  | repeated herr hsaved =>
    rw [hsaved]
    exact ⟨hs, .refl⟩
  | @advanced b new herr hsaved hlt hpos hlast hsig hbytes hvalid =>
    rw [hsaved]
    refine ⟨hs.save hvalid, .single ?_⟩
    have habs : (s.save (some new)).abs = ⟨a.position, some (some b), s.abs.log⟩ := by
      simp [abs, Signer.save, hpos, hlast]
    rw [habs]
    rw [hs.position] at hlt
    exact .advance (some b) hlt

/-- Releasing the signature of a successful request emits the value the register holds. -/
theorem release_refines {a : Answer} (hs : Inv key s) (h : Outcome key s.mem a) :
    Inv key ((s.save a.saved).release a) ∧
      Register.Steps s.abs ((s.save a.saved).release a).abs := by
  obtain ⟨hinv, hsteps⟩ := save_refines hs h
  cases h with
  | failed herr =>
    rw [Signer.release, if_neg herr]
    exact ⟨hinv, hsteps⟩
  | @repeated b herr hsaved hpos hlast hsig hbytes =>
    refine ⟨hinv.release hbytes (hs.mem.verifies b _ hlast hsig), hsteps.tail ?_⟩
    rw [hsaved, Signer.release, if_pos herr]
    have hvalue : s.abs.value = some (some b) := by simp [abs, ← hs.signBytes, hlast]
    have hemit := Register.Step.emit hvalue
    simpa [abs, Signer.save, hbytes, ← hpos, hs.position] using hemit
  | @advanced b new herr hsaved hlt hpos hlast hsig hbytes hvalid =>
    refine ⟨hinv.release hbytes (hvalid.verifies b _ hlast hsig), hsteps.tail ?_⟩
    rw [hsaved, Signer.release, if_pos herr]
    have hvalue : (s.save (some new)).abs.value = some (some b) := by
      simp [abs, Signer.save, hlast]
    have hemit := Register.Step.emit hvalue
    simpa [abs, Signer.save, hbytes, ← hpos] using hemit

theorem step_refines (hs : Inv key s) (e : Event) :
    Inv key (s.step key e) ∧ Register.Steps s.abs (s.step key e).abs := by
  cases e with
  | request r =>
    cases hrun : r.run key s.mem with
    | error e =>
      simp only [Signer.step, hrun]
      exact ⟨hs.restart, .refl⟩
    | ok a =>
      simp only [Signer.step, hrun]
      exact release_refines hs (Request.run_outcome hs.mem hrun)
  | crash => exact ⟨hs.restart, .refl⟩
  | crashAfterSave r =>
    cases hrun : r.run key s.mem with
    | error e =>
      simp only [Signer.step, hrun]
      exact ⟨hs.restart, .refl⟩
    | ok a =>
      simp only [Signer.step, hrun, abs_restart]
      obtain ⟨hinv, hsteps⟩ := save_refines hs (Request.run_outcome hs.mem hrun)
      exact ⟨hinv.restart, hsteps⟩

theorem foldl_refines (events : List Event) (hs : Inv key s) :
    Inv key (events.foldl (step key) s) ∧ Register.Steps s.abs (events.foldl (step key) s).abs := by
  induction events generalizing s with
  | nil => exact ⟨hs, .refl⟩
  | cons e events ih =>
    obtain ⟨hinv, hstep⟩ := step_refines hs e
    obtain ⟨hfinal, hsteps⟩ := ih hinv
    exact ⟨hfinal, hstep.trans hsteps⟩

theorem disk_of_err {r : Request} {a : Answer} (hs : Inv key s) (hrun : r.run key s.mem = .ok a)
    (herr : a.err ≠ none) : (s.step key (.request r)).disk = s.disk := by
  simp only [Signer.step, hrun, Signer.release, if_neg herr]
  cases Request.run_outcome hs.mem hrun with
  | failed _ hsaved => rw [hsaved]; rfl
  | repeated herr' => exact absurd herr' herr
  | advanced herr' => exact absurd herr' herr

end

/-- Whatever requests and crashes a validator goes through: one message per height, round and step,
positions that never decrease, signatures that verify, and errors that persist nothing. -/
theorem run_never_double_signs (key : PrivKey)
    (events : List Event) : (∀ x ∈ (run key events).released, ∀ y ∈ (run key events).released,
      x.position = y.position → x.signBytes = y.signBytes) ∧
    (run key events).released.Pairwise (fun x y => x.position ≤ y.position) ∧
    (∀ x ∈ (run key events).released, ∃ b, x.signBytes = some b ∧ key.verify b x.signature = true) ∧
    (∀ r a, r.run key (run key events).mem = .ok a → a.err ≠ none →
      ((run key events).step key (.request r)).disk = (run key events).disk) := by
  obtain ⟨hinv, hsteps⟩ := foldl_refines events (Inv.initial key)
  have hreg := (Register.Inv.init _ _).steps (s := initial.abs) hsteps
  refine ⟨?_, ?_, hinv.released, fun r a hrun herr => disk_of_err hinv hrun herr⟩
  · intro x hx y hy heq
    exact hreg.unique (x.position, x.signBytes) (mem_map_of_mem hx)
      (y.position, y.signBytes) (mem_map_of_mem hy) heq
  · have hsorted := hreg.sorted
    rwa [abs, pairwise_map] at hsorted

/-- A key that puts a byte in front of what it signs. -/
def sampleKey : PrivKey where
  sign msg := .ok (7 :: msg)
  verify msg sig := sig = 7 :: msg
  verify_sign := by
    intro msg sig h
    cases h
    exact decide_eq_true rfl

def samplePrevote (hash : UInt8) : Vote :=
  { (default : Vote) with
    type := .prevote
    height := 5
    blockID := ⟨.replicate hashSize hash, ⟨1, .replicate hashSize hash⟩⟩ }

/-- The node crashes with the signature of a prevote saved. Another block at that height, round and
step is then refused, and the first one gets the saved signature. -/
example : (run sampleKey [.crashAfterSave (.vote [99] (samplePrevote 1)),
    .request (.vote [99] (samplePrevote 2)), .crash,
    .request (.vote [99] (samplePrevote 1))]).released.map (fun x => (x.position, x.signBytes)) =
      [(Privval.position 5 0 stepPrevote, voteSignBytes [99] (samplePrevote 1))] := by
  decide +kernel

end Signer

/-! A released vote stands at the height, round and step that its sign bytes state. -/

open Signer

section Votes
variable {key : PrivKey} {lss : LastSignState} {chainID b : Bytes} {v : Vote} {reply : Reply Vote}

theorem signVote_msg (h : signVote key lss chainID v = .ok reply) :
    reply.msg.height = v.height ∧ reply.msg.round = v.round ∧ reply.msg.type = v.type := by
  simp only [signVote, bind, Except.bind] at h
  split at h
  · cases h
  split at h
  · cases h
  split at h
  · cases h
    exact ⟨rfl, rfl, rfl⟩
  split at h
  · cases h
  split at h
  · cases h
    exact ⟨rfl, rfl, rfl⟩
  split at h
  · simp only [reuseVote, bind, Except.bind] at h
    split at h
    · cases h
      exact ⟨rfl, rfl, rfl⟩
    split at h
    · cases h
    · split at h <;> obtain rfl := Except.ok.inj h <;> exact ⟨rfl, rfl, rfl⟩
  · cases h
    unfold freshVote
    split <;> exact ⟨rfl, rfl, rfl⟩

theorem Request.run_position {r : Request} {a : Answer} (h : r.run key lss = .ok a)
    (hb : a.signBytes = some b) (hv : voteSignBytes chainID v = some b)
    (ht : v.type = .prevote ∨ v.type = .precommit) :
    ∃ step, voteToStep v = .ok step ∧ a.position = Privval.position v.height v.round step := by
  cases r with
  | vote chainID' v' =>
    obtain ⟨step, hstep, h⟩ := except_bind_eq_ok.1 h
    obtain ⟨reply, hreply, ⟨⟩⟩ := except_bind_eq_ok.1 h
    obtain ⟨hheight, hround, htype⟩ := signVote_msg hreply
    obtain ⟨-, htype', hheight', hround', -⟩ := voteSignBytes_injective hv hb
    refine ⟨step, ?_, ?_⟩
    · rw [← hstep, voteToStep, voteToStep, htype', htype]
    · show Privval.position v'.height v'.round step = _
      rw [hheight', hround', hheight, hround]
  | proposal =>
    obtain ⟨reply, hreply, ⟨⟩⟩ := except_bind_eq_ok.1 h
    exact absurd hb (voteSignBytes_ne_proposalSignBytes hv ht)

end Votes

namespace Signer

/-- A released signature at the position of the vote that its sign bytes encode, if any. -/
def Placed (x : Released) : Prop :=
  ∀ chainID v b, x.signBytes = some b → voteSignBytes chainID v = some b →
    (v.type = .prevote ∨ v.type = .precommit) →
    ∃ step, voteToStep v = .ok step ∧ x.position = Privval.position v.height v.round step

theorem step_placed {key : PrivKey} {s : Signer} (e : Event) (hs : ∀ x ∈ s.released, Placed x) :
    ∀ x ∈ (s.step key e).released, Placed x := by
  have hsave (saved) : (s.save saved).released = s.released := by cases saved <;> rfl
  cases e with
  | request r =>
    cases hrun : r.run key s.mem with
    | error e => simpa [step, hrun, restart] using hs
    | ok a =>
      intro x hx
      simp only [step, hrun, release] at hx
      split_ifs at hx
      · rcases mem_append.1 hx with hx | hx
        · exact hs x (hsave _ ▸ hx)
        · obtain rfl := mem_singleton.1 hx
          exact fun chainID v b hb hv ht => Request.run_position hrun hb hv ht
      · exact hs x (hsave _ ▸ hx)
  | crash => simpa [step, restart] using hs
  | crashAfterSave r =>
    cases hrun : r.run key s.mem with
    | error e => simpa [step, hrun, restart] using hs
    | ok a =>
      intro x hx
      simp only [step, hrun, restart] at hx
      exact hs x (hsave _ ▸ hx)

theorem run_placed (key : PrivKey) (events : List Event) :
    ∀ x ∈ (run key events).released, Placed x := by
  have hfold : ∀ s : Signer, (∀ x ∈ s.released, Placed x) →
      ∀ x ∈ (events.foldl (step key) s).released, Placed x := by
    induction events with
    | nil => exact fun s hs => hs
    | cons e events ih => exact fun s hs => ih (s.step key e) (step_placed e hs)
  exact hfold initial (by simp [initial])

theorem released_blockID_eq {key : PrivKey} {events : List Event} {x y : Released}
    (hx : x ∈ (run key events).released) (hy : y ∈ (run key events).released) {chainID a b : Bytes}
    {v w : Vote} (hxa : x.signBytes = some a) (hyb : y.signBytes = some b)
    (hv : voteSignBytes chainID v = some a) (hw : voteSignBytes chainID w = some b)
    (ht : v.type = .prevote ∨ v.type = .precommit) (htype : v.type = w.type)
    (hheight : v.height = w.height) (hround : v.round = w.round) : v.blockID = w.blockID := by
  obtain ⟨step, hstep, hpos⟩ := run_placed key events x hx chainID v a hxa hv ht
  obtain ⟨step', hstep', hpos'⟩ := run_placed key events y hy chainID w b hyb hw (htype ▸ ht)
  have hsame : step = step' := by
    rw [voteToStep, htype, ← voteToStep, hstep'] at hstep
    exact (Except.ok.inj hstep).symm
  have hposition : x.position = y.position := by
    rw [hpos, hpos', hheight, hround, hsame]
  obtain ⟨-, hsteps⟩ := foldl_refines events (Inv.initial key)
  have hreg := (Register.Inv.init _ _).steps (s := initial.abs) hsteps
  have hbytes : x.signBytes = y.signBytes := hreg.unique (x.position, x.signBytes)
    (mem_map_of_mem hx) (y.position, y.signBytes) (mem_map_of_mem hy) hposition
  obtain rfl : a = b := Option.some.inj (hxa.symm.trans (hbytes.trans hyb))
  exact (voteSignBytes_injective hv hw).2.2.2.2.1

end Signer

end CelestiaCore.Privval
