import CelestiaCore.Consensus.Replay
import CelestiaCore.State.RollbackRuns

/-!
# The writes of a commit

A commit is five writes. The handshake after a crash between any two of them does the rest.
-/
namespace CelestiaCore.Replay
open Wire Program SM
open Durable (onPart read_bind_apply lift_bind_apply write_bind_apply lift_bind_eq_ok bind_eq_ok)

variable {A : Type} {cfg : Config A}

/-- Execution of a block on the application `a` and the state `s`, with the validators of a store.
-/
structure Executes (cfg : Config A) (store : StateStore) (a : A) (s : State) (d : Decided) (a' : A)
    (response : FinalizeResponse) (s' : State) : Prop where
  finalize : ∃ info,
    buildLastCommitInfoFromStore cfg.crypto.toCrypto store d.block s.initialHeight =
    .ok info ∧ cfg.app.finalizeBlock a d.block info = .ok (a', response)
  results : d.block.txs.length = response.txResults.length
  state : stateAfter cfg.crypto s d response = .ok s'

section Apply
variable {node : Node A} {a a' : A} {s s' : State} {d : Decided} {response : FinalizeResponse}

theorem executeBlock_real (h : Executes cfg node.store a s d a' response s') :
    executeBlock cfg.app cfg.crypto node (.real a) s.initialHeight d =
      .ok (.real a', response) := by
  obtain ⟨info, hinfo, hfinal⟩ := h.finalize
  simp only [executeBlock, hinfo, ProxyApp.finalizeBlock, hfinal, ok_bind, Except.map]
  rw [if_neg (not_not.2 h.results)]

theorem executeBlock_mock (h : Executes cfg node.store a s d a' response s') :
    executeBlock cfg.app cfg.crypto node (.mock response) s.initialHeight d =
      .ok (.mock response, response) := by
  obtain ⟨info, hinfo, -⟩ := h.finalize
  simp only [executeBlock, hinfo, ProxyApp.finalizeBlock, ok_bind]
  rw [if_neg (not_not.2 h.results)]

def responded (d : Decided) (response : FinalizeResponse) (node : Node A) : Node A :=
  (node.saveTxInfo d response).saveFinalizeBlockResponse d response

theorem onStore_save (hs' : s'.Storable cfg.crypto.toCrypto) (node : Node A) :
    onStore (StateStore.save s') node = ⟨[node.withStore (node.store.saved s')], .ok ()⟩ := by
  simp only [onStore, onPart, StateStore.save, hs'.saveBatch_eq]
  rfl

theorem applyBlock_real (h : Executes cfg node.store a s d a' response s')
    (hs' : s'.Storable cfg.crypto.toCrypto) : applyBlock cfg.app cfg.crypto (.real a) s d node =
      ⟨[node.saveTxInfo d response, responded d response node,
        (responded d response node).commitApp d a',
        ((responded d response node).commitApp d a').withStore (node.store.saved s')],
        .ok (s', .real a')⟩ := by
  rw [applyBlock, read_bind_apply, lift_bind_apply (executeBlock_real h)]
  rw [write_bind_apply, write_bind_apply, lift_bind_apply h.state]
  dsimp only [ProxyApp.commit]
  rw [write_bind_apply, Durable.single_bind_apply (onStore_save hs' _)]
  rfl

theorem applyBlock_mock (h : Executes cfg node.store a s d a' response s')
    (hs' : s'.Storable cfg.crypto.toCrypto) :
    applyBlock cfg.app cfg.crypto (.mock response) s d node =
      ⟨[node.saveTxInfo d response, responded d response node,
        (responded d response node).withStore (node.store.saved s')],
          .ok (s', .mock response)⟩ := by
  rw [applyBlock, read_bind_apply, lift_bind_apply (executeBlock_mock h)]
  rw [write_bind_apply, write_bind_apply, lift_bind_apply h.state]
  have hpure : (ProxyApp.mock response : ProxyApp A).commit d (responded d response node) =
    ⟨[], .ok ()⟩ := rfl
  rw [show ((node.saveTxInfo d response).saveFinalizeBlockResponse d response) =
    responded d response node from rfl, Durable.bind_apply_of_ok hpure]
  rw [List.getLastD_nil, Durable.single_bind_apply (onStore_save hs' _)]
  rfl

theorem executes_of_applyBlock {p : State × ProxyApp A}
    (h : (applyBlock cfg.app cfg.crypto (.real a) s d node).result = .ok p) :
    ∃ a' response, Executes cfg node.store a s d a' response p.1 ∧ p.2 = .real a' := by
  rw [applyBlock, read_bind_apply] at h
  obtain ⟨done, hdone, heq⟩ := lift_bind_eq_ok h
  rw [heq, write_bind_apply, write_bind_apply] at h
  obtain ⟨s₁, hs₁, heq'⟩ := lift_bind_eq_ok h
  dsimp only at h
  rw [heq'] at h
  obtain ⟨_, -, h⟩ := bind_eq_ok h
  obtain ⟨_, -, h⟩ := bind_eq_ok h
  cases h
  simp only [executeBlock, ProxyApp.finalizeBlock] at hdone
  cases hinfo : buildLastCommitInfoFromStore cfg.crypto.toCrypto node.store d.block
      s.initialHeight with
  | error err =>
    rw [hinfo] at hdone
    cases hdone
  | ok info =>
    cases hfinal : cfg.app.finalizeBlock a d.block info with
    | error err =>
      simp only [hinfo, hfinal, ok_bind, Except.map] at hdone
      cases hdone
    | ok q =>
      simp only [hinfo, hfinal, ok_bind, Except.map] at hdone
      split_ifs at hdone with hlen
      cases hdone
      exact ⟨q.1, q.2, ⟨⟨info, hinfo, hfinal⟩, not_not.1 hlen, hs₁⟩, rfl⟩

end Apply

section Commit
variable {n : Node A} {a a' : A} {s s' : State} {d : Decided} {response : FinalizeResponse}
    {now : Time}

def stages (n : Node A) (d : Decided) (a' : A) (response : FinalizeResponse) (s' : State) :
    List (Node A) :=
  [n.saveBlock d, (n.saveBlock d).saveTxInfo d response, responded d response (n.saveBlock d),
    (responded d response (n.saveBlock d)).commitApp d a',
    ((responded d response (n.saveBlock d)).commitApp d a').withStore (n.store.saved s')]

theorem finalizeCommit_eq (hvalid : validateBlock cfg.crypto cfg.hs s d.block false now = .ok ())
    (hheight : n.height < d.height) (h : Executes cfg n.store a s d a' response s')
    (hs' : s'.Storable cfg.crypto.toCrypto) : finalizeCommit cfg.app cfg.crypto cfg.hs a s d now n =
      ⟨stages n d a' response s', .ok (s', .real a')⟩ := by
  have hcheck : (validateBlock cfg.crypto cfg.hs s d.block false now).mapError
      (fun e => s!"+2/3 committed an invalid block: {e}") = .ok () := by
    rw [hvalid]
    rfl
  have hexec : Executes cfg (n.saveBlock d).store a s d a' response s' := h
  rw [finalizeCommit, lift_bind_apply hcheck, read_bind_apply, if_pos hheight, write_bind_apply]
  dsimp only
  rw [applyBlock_real hexec hs']
  rfl

theorem finalizeCommit_ok {p : State × ProxyApp A} (hheight : n.height < d.height)
    (hok : (finalizeCommit cfg.app cfg.crypto cfg.hs a s d now n).result = .ok p) :
    validateBlock cfg.crypto cfg.hs s d.block false now = .ok () ∧
      ∃ a' response, Executes cfg n.store a s d a' response p.1 ∧ p.2 = .real a' := by
  obtain ⟨_, hvalid, heq⟩ := lift_bind_eq_ok hok
  rw [finalizeCommit, heq, read_bind_apply, if_pos hheight, write_bind_apply] at hok
  have happly : (applyBlock cfg.app cfg.crypto (.real a) s d (n.saveBlock d)).result = .ok p := hok
  obtain ⟨a', response, hexec, hp⟩ := executes_of_applyBlock happly
  exact ⟨mapError_eq_ok.1 hvalid, a', response, hexec, hp⟩

theorem validateBlock_later {crypto : BatchCrypto} {hs : BlockHashes} {block : FullBlock}
    {skip : Bool}
    {later : Time} (h : validateBlock crypto hs s block skip now = .ok ()) (hle : now ≤ later) :
    validateBlock crypto hs s block skip later = .ok () := by
  simp only [validateBlock, check_bind_eq_ok, reject_eq_ok] at h ⊢
  obtain ⟨h₁, h₂, h₃, h₄, h₅, h₆, h₇, h₈, h₉, h₁₀, h₁₁, h₁₂, h₁₃, h₁₄, hclock, h₁₆⟩ := h
  exact ⟨h₁, h₂, h₃, h₄, h₅, h₆, h₇, h₈, h₉, h₁₀, h₁₁, h₁₂, h₁₃, h₁₄,
    fun hfuture => hclock (le_trans (Int.add_le_add_right hle _) hfuture), h₁₆⟩

theorem applies_of_stateAfter (hsound : s.Sound cfg.crypto.toCrypto)
    (hvalid : validateBlock cfg.crypto cfg.hs s d.block false now = .ok ())
    (h : stateAfter cfg.crypto s d response = .ok s') :
    Applies cfg.crypto.toCrypto s d.blockID d.block.header response.toResponseFinalizeBlock s' := by
  have hacc := validateBlock_eq_ok hvalid
  have hnonneg := hsound.lastBlockHeight
  unfold stateAfter at h
  simp only [check_bind_eq_ok] at h
  obtain ⟨-, h⟩ := h
  unfold validatorUpdates at h
  split_ifs at h with hkeys
  · constructor
    case height =>
      rw [State.nextHeight]
      split_ifs with hzero
      · exact hacc.first (by omega)
      · exact hacc.height (by omega)
    case keys =>
      intro u hu
      simpa [HasKeySize] using List.all_eq_true.1 hkeys u hu
    case executed =>
      rw [executed]
      obtain ⟨_, ⟨⟩, h⟩ := except_bind_eq_ok.1 h
      obtain ⟨s₁, hupdate, h⟩ := except_bind_eq_ok.1 h
      rw [mapError_eq_ok.1 hupdate]
      exact h
  · cases h

end Commit

end CelestiaCore.Replay
