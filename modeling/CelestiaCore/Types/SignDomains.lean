import CelestiaCore.Types.SignBytes

/-!
# Separation of the signing domains

Two requests have the same sign bytes exactly when they agree in kind and every signed field.
-/
namespace CelestiaCore
open Wire Option List

inductive SignRequest where
  | vote (chainID : Bytes) (vote : Vote)
  | proposal (chainID : Bytes) (proposal : Proposal)
  | voteExtension (chainID : Bytes) (vote : Vote)
  | rawBytes (chainID uniqueID rawBytes : Bytes)

/-- What a signature is meant to commit to. -/
inductive SignedContent where
  | vote (chainID : Bytes) (type : SignedMsgType) (height : Int64) (round : Int32)
      (blockID : BlockID) (timestamp : Time)
  | proposal (chainID : Bytes) (height : Int64) (round polRound : Int32)
      (blockID : BlockID) (timestamp : Time)
  | voteExtension (chainID : Bytes) (height : Int64) (round : Int32) (extension : Bytes)
  | rawBytes (chainID uniqueID rawBytes : Bytes)

namespace SignRequest

def signBytes : SignRequest → Option Bytes
  | .vote chainID v => voteSignBytes chainID v
  | .proposal chainID p => proposalSignBytes chainID p
  | .voteExtension chainID v => some (voteExtensionSignBytes chainID v)
  | .rawBytes chainID uniqueID raw => (rawBytesMessageSignBytes chainID uniqueID raw).toOption

def content : SignRequest → SignedContent
  | .vote chainID v => .vote chainID v.type v.height v.round v.blockID v.timestamp
  | .proposal chainID p => .proposal chainID p.height p.round p.polRound p.blockID p.timestamp
  | .voteExtension chainID v => .voteExtension chainID v.height v.round v.extension
  | .rawBytes chainID uniqueID raw => .rawBytes chainID uniqueID raw

def Admitted : SignRequest → Prop
  | .vote _ v => v.type = .prevote ∨ v.type = .precommit
  | _ => True

end SignRequest

theorem toInt64_injective {a b : Int32} (h : a.toInt64 = b.toInt64) : a = b := by
  simpa using congrArg Int64.toInt32 h

theorem canonicalizeBlockID_injective {b b' : BlockID} {o : Option BlockID}
    (h : canonicalizeBlockID b = some o) (h' : canonicalizeBlockID b' = some o) : b = b' := by
  unfold canonicalizeBlockID at h h'
  split at h
  next => simp at h
  next =>
    split at h'
    next => simp at h'
    next =>
      simp only [some.injEq] at h h'
      subst h
      by_cases hz : b.isZero = true <;> by_cases hz' : b'.isZero = true <;>
        simp only [hz, hz', if_true, if_false, Bool.false_eq_true, reduceCtorEq, some.injEq] at h'
      · rw [(BlockID.isZero_iff b).1 hz, (BlockID.isZero_iff b').1 hz']
      · exact h'.symm

section Votes
variable {chainID chainID' : Bytes} {v v' : Vote} {b : Bytes}

theorem voteSignBytes_eq_some (h : voteSignBytes chainID v = some b) :
    ∃ blockID, canonicalizeBlockID v.blockID = some blockID ∧ CanonicalVote.marshalDelimited
        ⟨v.type, v.height, v.round.toInt64, blockID, v.timestamp, chainID⟩ = some b := by
  simp only [voteSignBytes, canonicalizeVote, bind_eq_bind, bind_eq_some_iff, some.injEq] at h
  obtain ⟨_, ⟨blockID, hid, rfl⟩, hm⟩ := h
  exact ⟨blockID, hid, hm⟩

/-- A vote signature fixes the chain, the type, the height, the round, the block and the time. -/
theorem voteSignBytes_injective (h : voteSignBytes chainID v = some b)
    (h' : voteSignBytes chainID' v' = some b) :
    chainID = chainID' ∧ v.type = v'.type ∧ v.height = v'.height ∧ v.round = v'.round ∧
      v.blockID = v'.blockID ∧ v.timestamp = v'.timestamp := by
  obtain ⟨id, hid, hm⟩ := voteSignBytes_eq_some h
  obtain ⟨id', hid', hm'⟩ := voteSignBytes_eq_some h'
  have hdec := CanonicalVote.unmarshalDelimited_marshalDelimited hm
  rw [CanonicalVote.unmarshalDelimited_marshalDelimited hm'] at hdec
  simp only [some.injEq, CanonicalVote.mk.injEq] at hdec
  obtain ⟨htype, hheight, hround, rfl, htime, hchain⟩ := hdec
  exact ⟨hchain.symm, htype.symm, hheight.symm, (toInt64_injective hround).symm,
    canonicalizeBlockID_injective hid hid', htime.symm⟩

theorem voteSignBytes_congr (hc : chainID = chainID') (htype : v.type = v'.type)
    (hheight : v.height = v'.height) (hround : v.round = v'.round) (hblock : v.blockID = v'.blockID)
    (htime : v.timestamp = v'.timestamp) : voteSignBytes chainID v = voteSignBytes chainID' v' := by
  simp only [voteSignBytes, canonicalizeVote, hc, htype, hheight, hround, hblock, htime]

theorem voteSignBytes_fields (h : voteSignBytes chainID v = some b)
    (ht : v.type = .prevote ∨ v.type = .precommit) :
    ∃ fs, b = delimit (encodeFields (⟨1, .varint v.type.val.toInt64.toUInt64⟩ :: fs)) := by
  obtain ⟨id, -, hm⟩ := voteSignBytes_eq_some h
  have hne : v.type.val.toInt64.toUInt64 ≠ 0 := by
    rcases ht with ht | ht <;> rw [ht] <;> decide
  exact CanonicalVote.marshalDelimited_typed v.type hm rfl hne

theorem voteExtensionSignBytes_injective
    (h : voteExtensionSignBytes chainID v = voteExtensionSignBytes chainID' v') :
    chainID = chainID' ∧ v.height = v'.height ∧ v.round = v'.round ∧
      v.extension = v'.extension := by
  have hfields := encodeFields_injective (delimit_injective h)
  have hdec := CanonicalVoteExtension.foldlM_fields (canonicalizeVoteExtension chainID v)
  rw [hfields, CanonicalVoteExtension.foldlM_fields] at hdec
  simp only [canonicalizeVoteExtension, some.injEq, CanonicalVoteExtension.mk.injEq] at hdec
  obtain ⟨hext, hheight, hround, hchain⟩ := hdec
  exact ⟨hchain.symm, hheight.symm, (toInt64_injective hround).symm, hext.symm⟩

theorem voteExtension_fields_ne_varint {f : Field}
    (hf : f ∈ (canonicalizeVoteExtension chainID v).fields) (num : Nat) (n : UInt64) :
    f ≠ ⟨num, .varint n⟩ := by
  rintro rfl
  simp [CanonicalVoteExtension.fields, mem_optBytes, mem_optFixed64] at hf

end Votes

section Proposals
variable {chainID chainID' : Bytes} {p p' : Proposal} {b : Bytes}

theorem proposalSignBytes_eq_some (h : proposalSignBytes chainID p = some b) :
    ∃ blockID, canonicalizeBlockID p.blockID = some blockID ∧
      CanonicalProposal.marshalDelimited ⟨.proposal, p.height, p.round.toInt64,
        p.polRound.toInt64, blockID, p.timestamp, chainID⟩ = some b := by
  simp only [proposalSignBytes, canonicalizeProposal, bind_eq_bind,
    bind_eq_some_iff, some.injEq] at h
  obtain ⟨_, ⟨blockID, hid, rfl⟩, hm⟩ := h
  exact ⟨blockID, hid, hm⟩

theorem proposalSignBytes_injective (h : proposalSignBytes chainID p = some b)
    (h' : proposalSignBytes chainID' p' = some b) :
    chainID = chainID' ∧ p.height = p'.height ∧ p.round = p'.round ∧
      p.polRound = p'.polRound ∧ p.blockID = p'.blockID ∧ p.timestamp = p'.timestamp := by
  obtain ⟨id, hid, hm⟩ := proposalSignBytes_eq_some h
  obtain ⟨id', hid', hm'⟩ := proposalSignBytes_eq_some h'
  have hdec := CanonicalProposal.unmarshalDelimited_marshalDelimited hm
  rw [CanonicalProposal.unmarshalDelimited_marshalDelimited hm'] at hdec
  simp only [some.injEq, CanonicalProposal.mk.injEq, true_and] at hdec
  obtain ⟨hheight, hround, hpol, rfl, htime, hchain⟩ := hdec
  exact ⟨hchain.symm, hheight.symm, (toInt64_injective hround).symm,
    (toInt64_injective hpol).symm, canonicalizeBlockID_injective hid hid', htime.symm⟩

theorem proposalSignBytes_congr (hc : chainID = chainID') (hheight : p.height = p'.height)
    (hround : p.round = p'.round) (hpol : p.polRound = p'.polRound)
    (hblock : p.blockID = p'.blockID) (htime : p.timestamp = p'.timestamp) :
    proposalSignBytes chainID p = proposalSignBytes chainID' p' := by
  simp only [proposalSignBytes, canonicalizeProposal, hc, hheight, hround, hpol, hblock, htime]

theorem proposalSignBytes_fields (h : proposalSignBytes chainID p = some b) :
    ∃ fs, b = delimit (encodeFields
      (⟨1, .varint SignedMsgType.proposal.val.toInt64.toUInt64⟩ :: fs)) := by
  obtain ⟨id, -, hm⟩ := proposalSignBytes_eq_some h
  exact CanonicalProposal.marshalDelimited_typed .proposal hm rfl (by decide)

end Proposals

section RawBytes
variable {chainID chainID' uniqueID uniqueID' raw raw' b : Bytes}

theorem rawBytesMessageSignBytes_eq_ok
    (h : rawBytesMessageSignBytes chainID uniqueID raw = .ok b) : b = rawBytesSignBytesPrefix ++
      delimit (encodeFields (SignRawBytesRequest.fields ⟨chainID, raw, uniqueID⟩)) := by
  unfold rawBytesMessageSignBytes at h
  split_ifs at h
  exact (Except.ok.inj h).symm

theorem rawBytesMessageSignBytes_injective
    (h : rawBytesMessageSignBytes chainID uniqueID raw = .ok b)
    (h' : rawBytesMessageSignBytes chainID' uniqueID' raw' = .ok b) :
    chainID = chainID' ∧ uniqueID = uniqueID' ∧ raw = raw' := by
  have heq := rawBytesMessageSignBytes_eq_ok h
  rw [rawBytesMessageSignBytes_eq_ok h', append_right_inj] at heq
  have hfields := encodeFields_injective (delimit_injective heq)
  have hdec := SignRawBytesRequest.foldlM_fields ⟨chainID, raw, uniqueID⟩
  rw [← hfields, SignRawBytesRequest.foldlM_fields] at hdec
  simp only [some.injEq, SignRawBytesRequest.mk.injEq] at hdec
  exact ⟨hdec.1.symm, hdec.2.2.symm, hdec.2.1.symm⟩

/-- A delimited body is raw sign bytes only if the body itself starts with the letter `O`. -/
theorem head_of_delimit_eq_rawBytes {body : Bytes}
    (h : rawBytesMessageSignBytes chainID uniqueID raw = .ok (delimit body)) :
    ∃ rest, body = 79 :: rest := by
  have heq := rawBytesMessageSignBytes_eq_ok h
  exact ⟨_, (eq_of_delimit_eq_cons (by decide) heq).2⟩

end RawBytes

/-- An encoding that opens with a varint in field 1 does not start with the letter `O`. -/
theorem encodeFields_varint_ne (n : UInt64) (fs : List Field) (rest : Bytes) :
    encodeFields (⟨1, .varint n⟩ :: fs) ≠ 79 :: rest := by
  intro h
  have htag : (⟨1, .varint n⟩ : Field).tag < 128 := by simp [Field.tag, Value.wireType]
  rw [encodeFields, flatMap_cons, Field.head_encode _ htag] at h
  simp [Field.tag, Value.wireType] at h

theorem encodeFields_voteExtension_ne (chainID : Bytes) (v : Vote) (rest : Bytes) :
    encodeFields (canonicalizeVoteExtension chainID v).fields ≠ 79 :: rest := by
  intro h
  cases hfs : (canonicalizeVoteExtension chainID v).fields with
  | nil => simp [hfs, encodeFields] at h
  | cons f fs =>
    have hf : f ∈ (canonicalizeVoteExtension chainID v).fields := by simp [hfs]
    have htag : f.tag = 10 ∨ f.tag = 17 ∨ f.tag = 25 ∨ f.tag = 34 := by
      simp only [CanonicalVoteExtension.fields, mem_append, mem_optBytes, mem_optFixed64] at hf
      rcases hf with ⟨-, rfl⟩ | ⟨-, rfl⟩ | ⟨-, rfl⟩ | ⟨-, rfl⟩ <;>
        simp [Field.tag, Value.wireType]
    rw [hfs, encodeFields, flatMap_cons, Field.head_encode f (by omega)] at h
    simp only [cons_append, cons.injEq] at h
    rcases htag with ht | ht | ht | ht <;> rw [ht] at h <;> exact absurd h.1 (by decide)

section Disjoint
variable {chainID uniqueID raw b : Bytes} {v : Vote}

theorem vote_type_ne_proposal {t : SignedMsgType} (ht : t = .prevote ∨ t = .precommit) :
    t.val.toInt64.toUInt64 ≠ SignedMsgType.proposal.val.toInt64.toUInt64 := by
  rcases ht with rfl | rfl <;> decide

theorem voteSignBytes_ne_proposalSignBytes {chainID' : Bytes} {p : Proposal}
    (h : voteSignBytes chainID v = some b) (ht : v.type = .prevote ∨ v.type = .precommit) :
    proposalSignBytes chainID' p ≠ some b := by
  intro h'
  obtain ⟨fs, hfs⟩ := voteSignBytes_fields h ht
  obtain ⟨gs, hgs⟩ := proposalSignBytes_fields h'
  have heq := encodeFields_injective (delimit_injective (hfs.symm.trans hgs))
  simp only [cons.injEq, Field.mk.injEq, Value.varint.injEq, true_and] at heq
  exact vote_type_ne_proposal ht heq.1

theorem typed_ne_voteExtensionSignBytes (n : UInt64) (fs : List Field) :
    delimit (encodeFields (⟨1, .varint n⟩ :: fs)) ≠ voteExtensionSignBytes chainID v := by
  intro h
  have heq := encodeFields_injective (delimit_injective h)
  exact voteExtension_fields_ne_varint (heq ▸ mem_cons_self) 1 n rfl

theorem typed_ne_rawBytesMessageSignBytes (n : UInt64) (fs : List Field) :
    rawBytesMessageSignBytes chainID uniqueID raw ≠
      .ok (delimit (encodeFields (⟨1, .varint n⟩ :: fs))) := by
  intro h
  obtain ⟨rest, hrest⟩ := head_of_delimit_eq_rawBytes h
  exact encodeFields_varint_ne n fs rest hrest

theorem voteExtensionSignBytes_ne_rawBytesMessageSignBytes {chainID' : Bytes} :
    rawBytesMessageSignBytes chainID uniqueID raw ≠ .ok (voteExtensionSignBytes chainID' v) := by
  intro h
  obtain ⟨rest, hrest⟩ := head_of_delimit_eq_rawBytes h
  exact encodeFields_voteExtension_ne chainID' v rest hrest

theorem toOption_eq_some {x : Except String Bytes} : x.toOption = some b ↔ x = .ok b := by
  cases x <;> simp [Except.toOption]

end Disjoint

namespace SignRequest

theorem content_eq_of_signBytes_eq {r r' : SignRequest} {b : Bytes} (hr : r.Admitted)
    (hr' : r'.Admitted) (h : r.signBytes = some b) (h' : r'.signBytes = some b) :
    r.content = r'.content := by
  cases r with
  | vote =>
    obtain ⟨fs, hfs⟩ := voteSignBytes_fields h hr
    cases r' with
    | vote =>
      obtain ⟨h1, h2, h3, h4, h5, h6⟩ := voteSignBytes_injective h h'
      simp only [content, h1, h2, h3, h4, h5, h6]
    | proposal => exact absurd h' (voteSignBytes_ne_proposalSignBytes h hr)
    | voteExtension =>
      exact absurd (hfs.symm.trans (some.inj h').symm) (typed_ne_voteExtensionSignBytes _ _)
    | rawBytes =>
      exact absurd (hfs ▸ toOption_eq_some.1 h') (typed_ne_rawBytesMessageSignBytes _ _)
  | proposal =>
    obtain ⟨fs, hfs⟩ := proposalSignBytes_fields h
    cases r' with
    | vote => exact absurd h (voteSignBytes_ne_proposalSignBytes h' hr')
    | proposal =>
      obtain ⟨h1, h2, h3, h4, h5, h6⟩ := proposalSignBytes_injective h h'
      simp only [content, h1, h2, h3, h4, h5, h6]
    | voteExtension =>
      exact absurd (hfs.symm.trans (some.inj h').symm) (typed_ne_voteExtensionSignBytes _ _)
    | rawBytes =>
      exact absurd (hfs ▸ toOption_eq_some.1 h') (typed_ne_rawBytesMessageSignBytes _ _)
  | voteExtension c v =>
    have hb : b = voteExtensionSignBytes c v := (some.inj h).symm
    cases r' with
    | vote =>
      obtain ⟨fs, hfs⟩ := voteSignBytes_fields h' hr'
      exact absurd (hfs.symm.trans hb) (typed_ne_voteExtensionSignBytes _ _)
    | proposal =>
      obtain ⟨fs, hfs⟩ := proposalSignBytes_fields h'
      exact absurd (hfs.symm.trans hb) (typed_ne_voteExtensionSignBytes _ _)
    | voteExtension =>
      obtain ⟨h1, h2, h3, h4⟩ := voteExtensionSignBytes_injective (hb.symm.trans (some.inj h').symm)
      simp only [content, h1, h2, h3, h4]
    | rawBytes =>
      exact absurd (hb ▸ toOption_eq_some.1 h')
        voteExtensionSignBytes_ne_rawBytesMessageSignBytes
  | rawBytes =>
    have hb := toOption_eq_some.1 h
    cases r' with
    | vote =>
      obtain ⟨fs, rfl⟩ := voteSignBytes_fields h' hr'
      exact absurd hb (typed_ne_rawBytesMessageSignBytes _ _)
    | proposal =>
      obtain ⟨fs, rfl⟩ := proposalSignBytes_fields h'
      exact absurd hb (typed_ne_rawBytesMessageSignBytes _ _)
    | voteExtension =>
      cases h'
      exact absurd hb voteExtensionSignBytes_ne_rawBytesMessageSignBytes
    | rawBytes =>
      obtain ⟨h1, h2, h3⟩ := rawBytesMessageSignBytes_injective hb (toOption_eq_some.1 h')
      simp only [content, h1, h2, h3]

theorem signBytes_eq_of_content_eq {r r' : SignRequest} (h : r.content = r'.content) :
    r.signBytes = r'.signBytes := by
  cases r <;> cases r' <;>
    simp only [content, reduceCtorEq, SignedContent.vote.injEq, SignedContent.proposal.injEq,
      SignedContent.voteExtension.injEq, SignedContent.rawBytes.injEq] at h
  case vote.vote =>
    obtain ⟨h1, h2, h3, h4, h5, h6⟩ := h
    exact voteSignBytes_congr h1 h2 h3 h4 h5 h6
  case proposal.proposal =>
    obtain ⟨h1, h2, h3, h4, h5, h6⟩ := h
    exact proposalSignBytes_congr h1 h2 h3 h4 h5 h6
  case voteExtension.voteExtension =>
    obtain ⟨h1, h2, h3, h4⟩ := h
    simp only [signBytes, voteExtensionSignBytes, canonicalizeVoteExtension, h1, h2, h3, h4]
  case rawBytes.rawBytes =>
    obtain ⟨h1, h2, h3⟩ := h
    simp only [signBytes, h1, h2, h3]

/-- Sign bytes separate the four domains and are injective in exactly the signed fields. -/
theorem signBytes_eq_iff_content_eq (r r' : SignRequest) (hr : r.Admitted) (hr' : r'.Admitted)
    (b b' : Bytes) (h : r.signBytes = some b) (h' : r'.signBytes = some b') :
    b = b' ↔ r.content = r'.content := by
  constructor
  · rintro rfl
    exact content_eq_of_signBytes_eq hr hr' h h'
  · intro hcontent
    rw [signBytes_eq_of_content_eq hcontent, h'] at h
    exact (some.inj h).symm

/-- A nil prevote against a raw request on the same chain. -/
theorem signBytes_eq_iff_content_eq_prevote_rawBytes :
    let prevote : SignRequest := .vote [99] ⟨.prevote, 7, 0, .zero, 0, [], 0, [], [], []⟩
    let raw : SignRequest := .rawBytes [99] [117] [1]
    ∃ b b', prevote.signBytes = some b ∧ raw.signBytes = some b' ∧
      (b = b' ↔ prevote.content = raw.content) := by
  intro prevote raw
  obtain ⟨b, hb⟩ := isSome_iff_exists.1 (show prevote.signBytes.isSome from by decide)
  obtain ⟨b', hb'⟩ := isSome_iff_exists.1 (show raw.signBytes.isSome from by decide)
  exact ⟨b, b', hb, hb', signBytes_eq_iff_content_eq prevote raw (Or.inl rfl) trivial b b' hb hb'⟩

end SignRequest

end CelestiaCore
