import CelestiaCore.Privval.File
import CelestiaCore.Register.Monotone

/-!
# What a signing request does

Every request fails, repeats the stored signature, or moves the last sign state strictly forward.
-/
namespace CelestiaCore.Privval
open Wire Except LastSignState Option

abbrev Position := ℤ ×ₗ ℤ ×ₗ ℤ

def position (height : Int64) (round : Int32) (step : Int8) : Position :=
  toLex (height.toInt, toLex (round.toInt, step.toInt))

def LastSignState.position (lss : LastSignState) : Position :=
  Privval.position lss.height lss.round lss.step

theorem position_lt_iff {h h' : Int64} {r r' : Int32} {s s' : Int8} :
    position h r s < position h' r' s' ↔ h < h' ∨ h = h' ∧ (r < r' ∨ r = r' ∧ s < s') := by
  simp [position, Prod.Lex.toLex_lt_toLex, Int64.lt_iff_toInt_lt, Int32.lt_iff_toInt_lt,
    Int8.lt_iff_toInt_lt, Int64.toInt_inj, Int32.toInt_inj]

/-- The stored bytes are the sign bytes of a message of the stored step, and the stored signature
verifies over them. -/
structure LastSignState.Valid (key : PrivKey) (lss : LastSignState) : Prop where
  proposal : ∀ b, lss.signBytes = some b → lss.step = stepPropose →
    ∃ m : CanonicalProposal, m.marshalDelimited = some b
  vote : ∀ b, lss.signBytes = some b → lss.step = stepPrevote ∨ lss.step = stepPrecommit →
    ∃ m : CanonicalVote, m.marshalDelimited = some b
  verifies : ∀ b sig, lss.signBytes = some b → lss.signature = some sig → key.verify b sig = true

theorem LastSignState.Valid.initial (key : PrivKey) : initial.Valid key := by
  refine ⟨?_, ?_, ?_⟩ <;> simp [LastSignState.initial]

variable {lss : LastSignState}

theorem LastSignState.Valid.reload {key : PrivKey} (h : lss.Valid key) : lss.reload.Valid key := by
  refine ⟨h.proposal, h.vote, ?_⟩
  intro b sig hb hsig
  exact h.verifies b sig hb (eq_some_of_filter_eq_some hsig)

/-- An accepted request repeats the last position, with a signature at hand, or advances it. -/
theorem LastSignState.checkHRS_ok {height : Int64} {round : Int32}
    {step : Int8} {same : Bool} (h : lss.checkHRS height round step = .ok (.ok same)) :
    (same = true ∧ lss.height = height ∧ lss.round = round ∧ lss.step = step ∧
      ∃ b sig, lss.signBytes = some b ∧ lss.signature = some sig) ∨
    (same = false ∧ lss.position < Privval.position height round step) := by
  unfold checkHRS at h
  rw [position, position_lt_iff]
  split_ifs at h with h1 h2 h3 h4 h5 h6
  · cases h
  · cases h
  · cases h
  · split at h
    · cases h
    · next b sig hb hsig =>
      simp only [ok.injEq] at h
      exact Or.inl ⟨h.symm, h2, h4, h6, b, sig, hb, hsig⟩
    · cases h
  all_goals
    simp only [ok.injEq] at h
    refine Or.inr ⟨h.symm, ?_⟩
    grind

section Votes
variable {key : PrivKey} {lss : LastSignState} {chainID : Bytes} {vote : Vote}

theorem voteToStep_ok {step : Int8} (h : voteToStep vote = .ok step) :
    step = stepPrevote ∨ step = stepPrecommit := by
  unfold voteToStep at h
  split_ifs at h
  · exact Or.inl (ok.inj h).symm
  · exact Or.inr (ok.inj h).symm

/-- A vote that differs from the stored one only by its timestamp has, once that is rewritten, the
stored sign bytes. -/
theorem voteSignBytes_of_onlyDifferByTimestamp {last new : Bytes} {m : CanonicalVote} {t : Time}
    (hlast : m.marshalDelimited = some last) (hnew : voteSignBytes chainID vote = some new)
    (h : checkVotesOnlyDifferByTimestamp last new = .ok (t, true)) :
    voteSignBytes chainID { vote with timestamp := t } = some last := by
  obtain ⟨id, hid, hm⟩ := voteSignBytes_eq_some hnew
  simp only [checkVotesOnlyDifferByTimestamp,
    CanonicalVote.unmarshalDelimited_marshalDelimited hlast,
    CanonicalVote.unmarshalDelimited_marshalDelimited hm, ok.injEq, Prod.mk.injEq,
    decide_eq_true_eq, CanonicalVote.mk.injEq, true_and] at h
  obtain ⟨rfl, htype, hheight, hround, hblock, hchain⟩ := h
  simp only [voteSignBytes, canonicalizeVote, hid, bind_eq_bind, bind_some]
  rw [htype, hheight, hround, hblock, hchain]
  exact hlast

end Votes

section Proposals
variable {key : PrivKey} {lss : LastSignState} {chainID : Bytes} {proposal : Proposal}

theorem proposalSignBytes_of_onlyDifferByTimestamp {last new : Bytes} {m : CanonicalProposal}
    {t : Time} (hlast : m.marshalDelimited = some last)
    (hnew : proposalSignBytes chainID proposal = some new)
    (h : checkProposalsOnlyDifferByTimestamp last new = .ok (t, true)) :
    proposalSignBytes chainID { proposal with timestamp := t } = some last := by
  obtain ⟨id, hid, hm⟩ := proposalSignBytes_eq_some hnew
  simp only [checkProposalsOnlyDifferByTimestamp,
    CanonicalProposal.unmarshalDelimited_marshalDelimited hlast,
    CanonicalProposal.unmarshalDelimited_marshalDelimited hm, ok.injEq, Prod.mk.injEq,
    decide_eq_true_eq, CanonicalProposal.mk.injEq, true_and] at h
  obtain ⟨rfl, htype, hheight, hround, hpol, hblock, hchain⟩ := h
  simp only [proposalSignBytes, canonicalizeProposal, hid, bind_eq_bind, bind_some]
  rw [htype, hheight, hround, hpol, hblock, hchain]
  exact hlast

end Proposals

inductive Request where
  | vote (chainID : Bytes) (v : Vote)
  | proposal (chainID : Bytes) (p : Proposal)

/-- What a caller sees of a request: its position, the error, the signature, and the sign bytes
recomputed from the message as modified. -/
structure Answer where
  position : Position
  err : Option String
  saved : Option LastSignState
  signBytes : Option Bytes
  signature : Bytes

def Answer.ofVote (chainID : Bytes) (v : Vote) (step : Int8) (reply : Reply Vote) : Answer :=
  ⟨Privval.position v.height v.round step, reply.err, reply.saved,
    voteSignBytes chainID reply.msg, reply.msg.signature⟩

def Answer.ofProposal (chainID : Bytes) (p : Proposal) (reply : Reply Proposal) : Answer :=
  ⟨Privval.position p.height p.round stepPropose, reply.err, reply.saved,
    proposalSignBytes chainID reply.msg, reply.msg.signature⟩

def Request.run (key : PrivKey) (lss : LastSignState) : Request → Except String Answer
  | .vote chainID v => do
    let step ← voteToStep v
    let reply ← signVote key lss chainID v
    .ok (.ofVote chainID v step reply)
  | .proposal chainID p => do
    let reply ← signProposal key lss chainID p
    .ok (.ofProposal chainID p reply)

inductive Outcome (key : PrivKey) (lss : LastSignState) (a : Answer) : Prop
  | failed (herr : a.err ≠ none) (hsaved : a.saved = none)
  | repeated {b : Bytes} (herr : a.err = none) (hsaved : a.saved = none)
      (hpos : lss.position = a.position) (hlast : lss.signBytes = some b)
      (hsig : lss.signature = some a.signature) (hbytes : a.signBytes = some b)
  | advanced {b : Bytes} {new : LastSignState} (herr : a.err = none) (hsaved : a.saved = some new)
      (hlt : lss.position < a.position) (hpos : new.position = a.position)
      (hlast : new.signBytes = some b) (hsig : new.signature = some a.signature)
      (hbytes : a.signBytes = some b) (hvalid : new.Valid key)

section Votes
variable {key : PrivKey} {lss : LastSignState} {chainID b extSig : Bytes} {v : Vote} {step : Int8}

theorem LastSignState.Valid.of_vote {sig : Bytes}
    (hstep : step = stepPrevote ∨ step = stepPrecommit)
    (hb : voteSignBytes chainID v = some b) (hsig : key.sign b = .ok sig) :
    LastSignState.Valid key ⟨v.height, v.round, step, some sig, some b⟩ := by
  refine ⟨?_, ?_, ?_⟩
  · intro b' _ hpropose
    have hne : stepPrevote ≠ stepPropose ∧ stepPrecommit ≠ stepPropose := by decide
    exact absurd hpropose (hstep.elim (· ▸ hne.1) (· ▸ hne.2))
  · rintro _ ⟨⟩ _
    obtain ⟨id, -, hm⟩ := voteSignBytes_eq_some hb
    exact ⟨_, hm⟩
  · rintro _ _ ⟨⟩ ⟨⟩
    exact key.verify_sign b sig hsig

theorem reuseVote_outcome {reply : Reply Vote} (hv : lss.Valid key) {last sig : Bytes}
    (hpos : lss.position = Privval.position v.height v.round step)
    (hstep : lss.step = stepPrevote ∨ lss.step = stepPrecommit)
    (hlast : lss.signBytes = some last) (hsig : lss.signature = some sig)
    (hb : voteSignBytes chainID v = some b) (h : reuseVote lss b extSig v = .ok reply) :
    Outcome key lss (.ofVote chainID v step reply) := by
  simp only [reuseVote, hlast, hsig, getD_some] at h
  split_ifs at h with heq
  · cases h
    exact .repeated rfl rfl hpos hlast hsig (heq ▸ hb)
  obtain ⟨⟨t, ok⟩, hres, h⟩ := except_bind_eq_ok.1 h
  cases ok with
  | true =>
    cases h
    obtain ⟨m, hm⟩ := hv.vote last hlast hstep
    exact .repeated rfl rfl hpos hlast hsig (voteSignBytes_of_onlyDifferByTimestamp hm hb hres)
  | false =>
    cases h
    exact .failed nofun rfl

theorem freshVote_outcome (hlt : lss.position < Privval.position v.height v.round step)
    (hstep : step = stepPrevote ∨ step = stepPrecommit) (hb : voteSignBytes chainID v = some b) :
    Outcome key lss (.ofVote chainID v step (freshVote key step b extSig v)) := by
  cases hsig : key.sign b with
  | error e =>
    simp only [freshVote, hsig]
    exact .failed nofun rfl
  | ok sig =>
    simp only [freshVote, hsig]
    exact .advanced rfl rfl hlt rfl rfl rfl hb (.of_vote hstep hb hsig)

theorem signVote_outcome {reply : Reply Vote} (hv : lss.Valid key)
    (hstep : voteToStep v = .ok step) (h : signVote key lss chainID v = .ok reply) :
    Outcome key lss (.ofVote chainID v step reply) := by
  have hkind := voteToStep_ok hstep
  simp only [signVote, hstep, ok_bind] at h
  obtain ⟨checked, hcheck, h⟩ := except_bind_eq_ok.1 h
  split at h
  · cases h
    exact .failed nofun rfl
  split at h
  · cases h
  next b hb =>
  split at h
  · cases h
    exact .failed nofun rfl
  rcases checkHRS_ok hcheck with ⟨rfl, hheight, hround, hst, last, sig, hlast, hsig⟩ | ⟨rfl, hlt⟩
  · have hpos : lss.position = Privval.position v.height v.round step := by
      rw [LastSignState.position, hheight, hround, hst]
    exact reuseVote_outcome hv hpos (hst ▸ hkind) hlast hsig hb h
  · cases h
    exact freshVote_outcome hlt hkind hb

end Votes

section Proposals
variable {key : PrivKey} {lss : LastSignState} {chainID b : Bytes} {p : Proposal}

theorem LastSignState.Valid.of_proposal {sig : Bytes} (hb : proposalSignBytes chainID p = some b)
    (hsig : key.sign b = .ok sig) :
    LastSignState.Valid key ⟨p.height, p.round, stepPropose, some sig, some b⟩ := by
  refine ⟨?_, ?_, ?_⟩
  · rintro _ ⟨⟩ _
    obtain ⟨id, -, hm⟩ := proposalSignBytes_eq_some hb
    exact ⟨_, hm⟩
  · intro b' _ hvote
    have hne : stepPropose ≠ stepPrevote ∧ stepPropose ≠ stepPrecommit := by decide
    exact (hvote.elim hne.1 hne.2).elim
  · rintro _ _ ⟨⟩ ⟨⟩
    exact key.verify_sign b sig hsig

theorem reuseProposal_outcome {reply : Reply Proposal} (hv : lss.Valid key)
    {last sig : Bytes} (hpos : lss.position = Privval.position p.height p.round stepPropose)
    (hstep : lss.step = stepPropose) (hlast : lss.signBytes = some last)
    (hsig : lss.signature = some sig) (hb : proposalSignBytes chainID p = some b)
    (h : reuseProposal lss b p = .ok reply) : Outcome key lss (.ofProposal chainID p reply) := by
  simp only [reuseProposal, hlast, hsig, getD_some] at h
  split_ifs at h with heq
  · cases h
    exact .repeated rfl rfl hpos hlast hsig (heq ▸ hb)
  obtain ⟨⟨t, ok⟩, hres, h⟩ := except_bind_eq_ok.1 h
  cases ok with
  | true =>
    cases h
    obtain ⟨m, hm⟩ := hv.proposal last hlast hstep
    exact .repeated rfl rfl hpos hlast hsig (proposalSignBytes_of_onlyDifferByTimestamp hm hb hres)
  | false =>
    cases h
    exact .failed nofun rfl

theorem freshProposal_outcome (hlt : lss.position < Privval.position p.height p.round stepPropose)
    (hb : proposalSignBytes chainID p = some b) :
    Outcome key lss (.ofProposal chainID p (freshProposal key b p)) := by
  cases hsig : key.sign b with
  | error e =>
    simp only [freshProposal, hsig]
    exact .failed nofun rfl
  | ok sig =>
    simp only [freshProposal, hsig]
    exact .advanced rfl rfl hlt rfl rfl rfl hb (.of_proposal hb hsig)

theorem signProposal_outcome {reply : Reply Proposal} (hv : lss.Valid key)
    (h : signProposal key lss chainID p = .ok reply) :
    Outcome key lss (.ofProposal chainID p reply) := by
  obtain ⟨checked, hcheck, h⟩ := except_bind_eq_ok.1 h
  split at h
  · cases h
    exact .failed nofun rfl
  split at h
  · cases h
  next b hb =>
  rcases checkHRS_ok hcheck with ⟨rfl, hheight, hround, hst, last, sig, hlast, hsig⟩ | ⟨rfl, hlt⟩
  · have hpos : lss.position = Privval.position p.height p.round stepPropose := by
      rw [LastSignState.position, hheight, hround, hst]
    exact reuseProposal_outcome hv hpos hst hlast hsig hb h
  · cases h
    exact freshProposal_outcome hlt hb

end Proposals

theorem Request.run_outcome {key : PrivKey} {r : Request} {a : Answer}
    (hv : lss.Valid key) (h : r.run key lss = .ok a) : Outcome key lss a := by
  cases r with
  | vote =>
    obtain ⟨step, hstep, h⟩ := except_bind_eq_ok.1 h
    obtain ⟨reply, hreply, ⟨⟩⟩ := except_bind_eq_ok.1 h
    exact signVote_outcome hv hstep hreply
  | proposal =>
    obtain ⟨reply, hreply, ⟨⟩⟩ := except_bind_eq_ok.1 h
    exact signProposal_outcome hv hreply

end CelestiaCore.Privval
