import CelestiaCore.Consensus.CommitWait
import CelestiaCore.Quorum.Locking
import CelestiaCore.Types.SignDomains

/-!
# A network of nodes

Nodes at one height with one validator set. Messages are lost, duplicated, delayed and reordered at
will, timeouts fire at any time, and only the votes of other validators cannot be forged.
-/
namespace CelestiaCore.Consensus
open Wire Quorum List ValidatorSet

variable {β : Type} {env : Env β} {P : Policy} {Q : Vote → Prop} {s t : State β}

section Order

def SignCall.asCast (c : SignCall β) : SignCall β := { c with rs := { c.rs with round := c.round } }

def SignCall.Before (c c' : SignCall β) : Prop :=
  c.rs.height < c'.rs.height ∨ c.rs.height = c'.rs.height ∧ c.round ≤ c'.rs.round ∧
    (c.round < c'.round ∨ stepOf c.msgType < stepOf c'.msgType)

/-- The height and round of a call are those of the vote signed for it. -/
structure SignCall.InRange (c : SignCall β) : Prop where
  height : (Int64.ofInt c.rs.height).toInt = c.rs.height
  round : (Int32.ofInt c.rs.round).toInt = c.rs.round

/-- The calls of a node in the order in which they are made, whatever timeouts it is handed. -/
structure Ordered (s : State β) : Prop where
  before : s.calls.Pairwise SignCall.Before
  past : ∀ c ∈ s.calls, Past s.rs c.asCast
  round_le : ∀ c ∈ s.calls, c.rs.round ≤ c.round
  inRange : ∀ c ∈ s.calls, c.InRange

theorem Positioned.toInt_height (h : Positioned s) :
    (Int64.ofInt s.rs.height).toInt = s.rs.height := by
  have hpos := h.height_pos
  have hmax := s.sm.nextHeight_le
  rw [← h.height, maxInt64] at hmax
  exact Int64.toInt_ofInt_of_le (by omega) (by omega)

theorem Calls.before {c c' : SignCall β} (h : Calls env P s t c') (hpast : Past s.rs c.asCast) :
    c.Before c' := by
  have hheight := h.height
  have hsigned := h.signed
  have hround := h.round
  obtain hlt | ⟨heq, hpast⟩ := hpast
  · exact .inl (hheight ▸ hlt)
  refine .inr ⟨heq.trans hheight.symm, ?_⟩
  obtain hlt | ⟨hr, hle⟩ := hpast
  · have hlt : c.round < s.rs.round := hlt
    omega
  have hr : c.round = s.rs.round := hr
  refine ⟨hr.trans_le hsigned.ge, ?_⟩
  obtain hlt | hr' := hround.lt_or_eq
  · left
    omega
  · exact .inr (hle.trans_lt (h.step hr'))

theorem Ordered.step (h : Ordered s) (hpos : Positioned s) (htr : Transition env P s t) :
    Ordered t := by
  have hadv := htr.advances hpos
  obtain hcalls | ⟨c, hcalls, hc⟩ := htr.calls
  · constructor <;> rw [hcalls]
    · exact h.before
    · exact fun c hc => (h.past c hc).advance hadv
    · exact h.round_le
    · exact h.inRange
  · constructor <;> rw [hcalls]
    · refine pairwise_append.2 ⟨h.before, pairwise_singleton _ _, ?_⟩
      intro c' hc' c'' hc''
      obtain rfl := mem_singleton.1 hc''
      exact hc.before (h.past c' hc')
    · refine forall_mem_append.2
        ⟨fun c' hc' => (h.past c' hc').advance hadv, forall_mem_singleton.2 ?_⟩
      rw [hc.entered]
      exact .inr ⟨rfl, .inr ⟨rfl, le_rfl⟩⟩
    · refine forall_mem_append.2 ⟨h.round_le, forall_mem_singleton.2 ?_⟩
      exact hc.signed.trans_le hc.round
    · refine forall_mem_append.2 ⟨h.inRange, forall_mem_singleton.2 ⟨?_, ?_⟩⟩
      · rw [hc.height]
        exact hpos.toInt_height
      · rw [hc.signed]
        exact hpos.toInt_round

theorem Ordered.stop (h : Ordered s) (hstop : Interrupted P s t) : Ordered t := by
  constructor <;> rw [hstop.calls]
  · exact h.before
  · exact fun c hc => (h.past c hc).advance hstop.advances
  · exact h.round_le
  · exact h.inRange

theorem Ordered.start (env : Env β) (st : Start) : Ordered (.new env st) := by
  constructor <;> simp [State.new]

/-- A node signs its votes in the order in which it reaches their rounds and steps. -/
theorem run_ordered (env : Env β) (st : Start) (inputs : List (Oracle β × Event)) :
    Ordered (Node.run env st inputs).state := by
  have hsound : Kept env _ (Sound env _) := Sound.kept (Policy.delivers_forTimeouts fun _ => True)
  have hkept : Kept env _ fun s => Sound env _ s ∧ Ordered s :=
    ⟨fun h htr => ⟨hsound.step h.1 htr, h.2.step h.1.position htr⟩,
      fun h hstop => ⟨hsound.stop h.1 hstop, h.2.stop hstop⟩⟩
  exact ((Node.reachable_run env st inputs).invariant hkept ⟨.start env _ st, .start env st⟩
    fun s e hs _ => hs.1.suits fun ti hti => Event.allowsTimeout s.rs hti).2

theorem Ordered.before_or_before (h : Ordered s) {c c' : SignCall β} (hc : c ∈ s.calls)
    (hc' : c' ∈ s.calls) (hne : c.msgType ≠ c'.msgType) : c.Before c' ∨ c'.Before c := by
  have : Std.Symm fun c c' : SignCall β => c.Before c' ∨ c'.Before c := ⟨fun _ _ => Or.symm⟩
  have hpairs : s.calls.Pairwise fun c c' => c.Before c' ∨ c'.Before c := h.before.imp .inl
  refine hpairs.forall hc hc' ?_
  rintro rfl
  exact hne rfl

end Order

section Since

/-- What a node has done since it was in state `s`. -/
structure Since (s t : State β) : Prop where
  position : s.rs.height < t.rs.height ∨ t.rs.height = s.rs.height ∧ s.rs.round ≤ t.rs.round
  old : ∀ c ∈ s.calls, c ∈ t.calls
  new : ∀ c ∈ t.calls, c ∈ s.calls ∨ s.rs.height < c.rs.height ∨
    c.rs.height = s.rs.height ∧ s.rs.round ≤ c.rs.round

theorem Since.refl (s : State β) : Since s s :=
  ⟨.inr ⟨rfl, le_rfl⟩, fun _ => id, fun _ => .inl⟩

theorem Since.position_advance {u : State β} (h : Since s t) (hadv : Advances t.rs u.rs) :
    s.rs.height < u.rs.height ∨ u.rs.height = s.rs.height ∧ s.rs.round ≤ u.rs.round := by
  have hpos := h.position
  unfold Advances at hadv
  omega

theorem Since.step {u : State β} (h : Since s t) (hpos : Positioned t)
    (htr : Transition env P t u) : Since s u := by
  have hposition := h.position_advance (htr.advances hpos)
  obtain hcalls | ⟨c, hcalls, hc⟩ := htr.calls
  · refine ⟨hposition, ?_, ?_⟩ <;> rw [hcalls]
    · exact h.old
    · exact h.new
  · refine ⟨hposition, ?_, ?_⟩ <;> rw [hcalls]
    · exact fun c' hc' => mem_append_left _ (h.old c' hc')
    · refine forall_mem_append.2 ⟨h.new, forall_mem_singleton.2 (.inr ?_)⟩
      rw [hc.height, hc.signed]
      exact h.position

theorem Since.stop {u : State β} (h : Since s t) (hstop : Interrupted P t u) : Since s u := by
  refine ⟨h.position_advance hstop.advances, ?_, ?_⟩ <;> rw [hstop.calls]
  · exact h.old
  · exact h.new

end Since

/-- Nodes at one height. A validator without a node may do anything; the votes of the others are
signed in the calls of `signAddVote` that `signs` selects. -/
structure Network (ι β : Type) where
  env : ι → Env β
  start : ι → Start
  crypto : Crypto
  chainID : Bytes
  height : Int
  vals : BoundedValidatorSet
  owner : Nat → Option ι
  signs : ι → SignCall β → Prop
  crypto_eq : ∀ i, (env i).crypto = crypto
  height_eq : ∀ i, (start i).sm.nextHeight = height
  chainID_eq : ∀ i, (start i).sm.chainID = chainID
  vals_eq : ∀ i, (start i).sm.validators.1.validators = vals.1.validators
  minority : 3 * ∑ k ∈ (Finset.range vals.1.size).filter fun k => (owner k).isNone,
    vals.1.power k < vals.1.total

namespace Network
variable {ι : Type} (N : Network ι β)

def committee : Committee ℕ where
  members := Finset.range N.vals.1.size
  weight := N.vals.1.power
  faulty := (Finset.range N.vals.1.size).filter fun k => (N.owner k).isNone
  weight_nonneg := N.vals.2.power_nonneg
  minority := by
    rw [← total_eq_sum]
    exact N.minority

/-- Validator `k` signed a vote of the type for the identifier in the round. -/
def Casts (nodes : ι → Node β) (k : ℕ) (type : SignedMsgType) (r : ℤ) (id : BlockID) : Prop :=
  ∃ i, N.owner k = some i ∧ ∃ c ∈ (nodes i).state.calls, N.signs i c ∧ c.msgType = type ∧
    c.rs.height = N.height ∧ c.rs.round = r ∧ c.blockID = id

/-- The votes of the validators that have a node, and the rounds their nodes have passed. -/
def ballots (nodes : ι → Node β) : Ballots ℕ BlockID where
  prevoted k := N.Casts nodes k .prevote
  precommitted k := N.Casts nodes k .precommit
  passed k r := ∃ i, N.owner k = some i ∧ (N.height < (nodes i).state.rs.height ∨
    (nodes i).state.rs.height = N.height ∧ r < (nodes i).state.rs.round)

/-- A vote of the height is not forged: if it verifies under the key of a node's validator, the node
signed these bytes in a call of `signAddVote`. -/
def Authentic (nodes : ι → Node β) (v : Vote) : Prop :=
  v.height.toInt = N.height → ∀ k i val pk bytes, N.owner k = some i →
    N.vals.1.validators[k]? = some val → val.pubKey = some pk →
    voteSignBytes N.chainID v = some bytes → N.crypto.verifySignature pk bytes v.signature = true →
    ∃ c ∈ (nodes i).state.calls, N.signs i c ∧ ∃ o pk' timestamp,
      voteSignBytes N.chainID
        { unsignedVote (N.env i) o c.rs pk' c.msgType c.blockID with timestamp } = some bytes

/-- The configurations of the network: in each step one node handles one event, with no forged
vote. -/
inductive Reachable [DecidableEq ι] : (ι → Node β) → Prop
  | start : Reachable fun i => .start (N.env i) (N.start i)
  | step {nodes : ι → Node β} (i : ι) (o : Oracle β) (e : Event) (hnodes : Reachable nodes)
      (hvote : ∀ v, e.message (nodes i).state = some (.vote v) → N.Authentic nodes v) :
      Reachable (Function.update nodes i ((nodes i).step (N.env i) (o, e)))

/-- Every node signs at most one prevote and one precommit in a round of the height. -/
def SignsOnce (nodes : ι → Node β) : Prop :=
  ∀ i, (nodes i).state.calls.Pairwise fun c c' => N.signs i c → N.signs i c' →
    c.rs.height = N.height → c'.rs.height = N.height → c.msgType = c'.msgType →
    c.rs.round ≠ c'.rs.round

def Delivered (nodes : ι → Node β) (v : Vote) : Prop :=
  v.blockID.WellFormed ∧ N.Authentic nodes v

/-- The policy of a node that is handed such votes, and any timeouts. -/
def policy (nodes : ι → Node β) : Policy :=
  ⟨fun _ => True, fun m => m.WellFormed ∧ ∀ v, m = .vote v → N.Authentic nodes v, True⟩

variable {N} {nodes nodes' : ι → Node β}

theorem policy_delivers (nodes : ι → Node β) : (N.policy nodes).Delivers (N.Delivered nodes) :=
  ⟨fun _ h => h.1, fun v h => ⟨h.1.1, h.2 v rfl⟩, fun _ h => h.1⟩

theorem policy_suits {e : Event} (hs : Sound env Q s)
    (hvote : ∀ v, e.message s = some (.vote v) → N.Authentic nodes v) :
    (N.policy nodes).Suits env s e where
  handles m hm := by
    have hwf := hs.message_wellFormed hm
    exact ⟨⟨hwf, fun v hv => hvote v (hv ▸ hm)⟩, hwf⟩
  timeout ti hti := Event.allowsTimeout_of_forall (fun _ => trivial) trivial s.rs hti
  escapes _ _ _ _ := trivial

section Tally

/-- Vote sets of the height, for the validators of the network, that hold only votes with `Q`. -/
structure Tally (N : Network ι β) (Q : Vote → Prop) (hvs : HeightVoteSet) : Prop where
  consistent : hvs.Consistent N.crypto Q
  height : hvs.height = N.height
  chainID : hvs.chainID = N.chainID
  vals : hvs.valSet.1.validators = N.vals.1.validators

theorem exists_owner {k : ℕ} (hk : k < N.vals.1.size) (hhonest : k ∉ N.committee.faulty) :
    ∃ i, N.owner k = some i := by
  cases howner : N.owner k with
  | some i => exact ⟨i, rfl⟩
  | none => exact absurd (Finset.mem_filter.2 ⟨Finset.mem_range.2 hk, by simp [howner]⟩) hhonest

theorem casts_of_admits {vs : VoteSet} {v : Vote} {k : ℕ} {i : ι}
    (hrange : ∀ c ∈ (nodes i).state.calls, c.InRange) (howner : N.owner k = some i)
    (hauth : N.Authentic nodes v) (hadm : vs.Admits N.crypto v) (hheight : vs.height = N.height)
    (hchain : vs.chainID = N.chainID) (hvals : vs.vals.validators = N.vals.1.validators)
    (hindex : v.validatorIndex.toInt = k) :
    N.Casts nodes k vs.signedMsgType vs.round v.blockID := by
  obtain ⟨val, pk, bytes, hval, hpk, hbytes, hsig⟩ := hadm.signed
  rw [hvals, hindex, Int.toNat_natCast] at hval
  rw [hchain] at hbytes
  obtain ⟨c, hc, hsigns, o, pk', timestamp, hcall⟩ := hauth (hadm.height.trans hheight) k i val pk
    bytes howner hval hpk hbytes hsig
  obtain ⟨-, htype, hh, hr, hid, -⟩ := voteSignBytes_injective hcall hbytes
  refine ⟨i, howner, c, hc, hsigns, htype.trans hadm.type, ?_, ?_, hid⟩
  · rw [← (hrange c hc).height, ← hheight, ← hadm.height]
    exact congrArg Int64.toInt hh
  · rw [← (hrange c hc).round, ← hadm.round]
    exact congrArg Int32.toInt hr

theorem Tally.quorum {hvs : HeightVoteSet} {r : ℤ} {id : BlockID}
    (h : N.Tally (N.Delivered nodes) hvs) (type : SignedMsgType)
    (hrange : ∀ i, ∀ c ∈ (nodes i).state.calls, c.InRange) (htype : type.isVoteTypeValid = true)
    (hmaj : twoThirdsMajority (hvs.getVoteSet r type) = some id) :
    N.committee.HasQuorum fun k => N.Casts nodes k type r id := by
  obtain ⟨vs, hvs, hmaj⟩ := Option.bind_eq_some_iff.1 hmaj
  have htracks := h.consistent.tracks htype hvs
  obtain ⟨bv, hbv, hpower, -⟩ := htracks.accounts.majority id hmaj
  have hblock := htracks.accounts.blocks id.key bv hbv
  have hvals : vs.vals.validators = N.vals.1.validators := by
    rw [VoteSet.vals, htracks.valSet]
    exact h.vals
  have hsize : vs.vals.size = N.vals.1.size := by rw [size, hvals, size]
  have hweight : vs.vals.power = N.vals.1.power := by
    funext k
    rw [power, hvals, power]
  have hsub : filled bv.votes ⊆ N.committee.members :=
    filled_subset_range (hblock.votes_length.trans hsize)
  refine ⟨filled bv.votes, hsub, ?_, ?_⟩
  · rw [VoteSet.Majority, hblock.sum, total_eq_sum, hsize, hweight] at hpower
    exact hpower
  · intro k hk hhonest
    obtain ⟨i, howner⟩ := exists_owner (Finset.mem_range.1 (hsub hk)) hhonest
    obtain ⟨v, hv⟩ := Option.isSome_iff_exists.1 (mem_filled.1 hk)
    obtain ⟨hkey, hindex⟩ := hblock.keyed k v hv
    obtain ⟨⟨hwf, hauth⟩, hadm⟩ := htracks.votes.tallied id.key bv k v hbv hv
    obtain ⟨v', ⟨⟨hwf', -⟩, -⟩, rfl⟩ := htracks.votes.maj23 id hmaj
    have hcasts := casts_of_admits (hrange i) howner hauth hadm
      (htracks.height.trans h.height) (htracks.chainID.trans h.chainID) hvals hindex
    rw [htracks.type, htracks.round, hwf.eq_of_key_eq hwf' hkey] at hcasts
    exact hcasts

end Tally

end Network

end CelestiaCore.Consensus
