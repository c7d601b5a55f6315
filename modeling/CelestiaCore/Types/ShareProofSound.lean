import CelestiaCore.Merkle.Inclusion
import CelestiaCore.Program.Fallible
import CelestiaCore.Types.ShareProof

/-!
# A valid share proof pins the shares

A share proof that validates lists exactly the shares at its positions, and no sum of its fields
wraps. -/
namespace CelestiaCore.Shares
open Wire Merkle PowerSplit ShareProof Program List Option

variable {i : Nat}

section Words

def Word.ideal : Word := ⟨.ok, .ok⟩

/-- Arithmetic that is exact on what fits. -/
structure Word.Exact (w : Word) : Prop where
  int64 : ∀ x : Int, -2 ^ 63 ≤ x → x < 2 ^ 63 → w.int64 x = .ok x
  uint64 : ∀ x : Int, 0 ≤ x → x < 2 ^ 64 → w.uint64 x = .ok x

theorem Word.exact_machine : Word.machine.Exact := by
  constructor
  case int64 =>
    intro x hlo hhi
    simp only [Word.machine, Except.ok.injEq]
    exact Int.bmod_eq_of_le (by omega) (by omega)
  case uint64 =>
    intro x hlo hhi
    simp only [Word.machine, Except.ok.injEq]
    exact Int.emod_eq_of_lt hlo hhi

theorem Word.exact_checked : Word.checked.Exact := by
  constructor
  case int64 =>
    intro x hlo hhi
    exact if_pos ⟨hlo, hhi⟩
  case uint64 =>
    intro x hlo hhi
    exact if_pos ⟨hlo, hhi⟩

/-- An error that is not a panic. -/
def Failure.IsErr (e : Failure) : Prop := ∃ msg, e = .err msg

def Plain {α : Type} (r : Except Failure α) : Prop := ∀ e, r = .error e → ∃ msg, e = .err msg

variable {α : Type}

theorem plain_of_meets {x : Except Failure α} {Q : α → Prop} (h : Meets Failure.IsErr x Q) :
    Plain x :=
  fun _ => h.of_error

theorem deref_eq_ok {l : List (Option α)} {x : α} : deref l i = .ok x ↔ l[i]? = some (some x) := by
  unfold deref
  split <;> simp_all

end Words

theorem total_eq_pow {total : Int64} (hfour : ¬total < 4) (hbits : total &&& (total - 1) = 0) :
    ∃ b : Nat, total.toInt = (2 ^ (b + 2) : Nat) := by
  have hle : 4 ≤ total.toInt := by
    have := Int64.lt_iff_toInt_lt.not.1 hfour
    simpa using this
  have hnat : total.toInt = total.toBitVec.toNat := by
    rw [Int64.toInt, BitVec.toInt_eq_toNat_cond] at hle ⊢
    split_ifs at hle ⊢ with hhalf
    · rfl
    · have := total.toBitVec.isLt
      omega
  have hand : total.toBitVec.toNat &&& (total.toBitVec.toNat - 1) = 0 := by
    have hvec := congrArg (fun x => x.toBitVec.toNat) hbits
    simp only [Int64.toBitVec_and, Int64.toBitVec_sub, BitVec.toNat_and, BitVec.toNat_sub] at hvec
    have hone : (1 : Int64).toBitVec.toNat = 1 := by decide
    have hzero : (0 : Int64).toBitVec.toNat = 0 := by decide
    rw [hone, hzero] at hvec
    have hlt := total.toBitVec.isLt
    rwa [show (2 ^ 64 - 1 + total.toBitVec.toNat) % 2 ^ 64 = total.toBitVec.toNat - 1 by omega]
      at hvec
  obtain ⟨k, hk⟩ := (Nat.and_sub_one_eq_zero_iff_isPowerOfTwo (by omega)).1 hand
  have htwo : 2 ≤ k := by
    by_contra hlt
    have : 2 ^ k ≤ 2 ^ 1 := Nat.pow_le_pow_right (by omega) (by omega)
    omega
  refine ⟨k - 2, ?_⟩
  rw [hnat, hk, show k - 2 + 2 = k by omega]

section Rows
variable {w : Word} {h : Digest} {rp : RowProof} {root : Option Bytes}

/-- What the loop over the row proofs checks of the proof at an index. -/
structure RowChecked (rp : RowProof) (first proof : Proof) (i : Nat) : Prop where
  index : proof.index.toInt = rp.startRow.toNat + i
  total : proof.total = first.total
  four : ¬proof.total < 4
  bits : proof.total &&& (proof.total - 1) = 0
  half : proof.index.toInt < proof.total.toInt.tdiv 2

variable {ps : List (Option Proof)}

theorem checkRows_congr (hw : w.Exact)
    (hlen : i + ps.length ≤ 2 ^ 32) : rp.checkRows w ps i = rp.checkRows .ideal ps i := by
  induction ps generalizing i with
  | nil => rfl
  | cons p ps ih =>
    have hstart := rp.startRow.toNat_lt
    rw [length_cons] at hlen
    cases p with
    | none =>
      rw [RowProof.checkRows, RowProof.checkRows, hw.uint64 _ (by omega) (by omega)]
      rfl
    | some p =>
      rw [RowProof.checkRows, RowProof.checkRows, hw.int64 _ (by omega) (by omega), ih (by omega)]
      rfl

/-- A nil proof fails the check of its own row, so the first proof is not nil when it is read. -/
theorem checkRows_meets
    (hfirst : ∀ p rest, ps = some p :: rest → ∃ first, rp.proofs[0]? = some (some first)) :
    Meets Failure.IsErr (rp.checkRows .ideal ps i) fun _ => ∀ x ∈ ps.zipIdx i,
      ∃ first proof, rp.proofs[0]? = some (some first) ∧ x.1 = some proof ∧
        RowChecked rp first proof x.2 := by
  induction ps generalizing i with
  | nil => exact nofun
  | cons p ps ih =>
    cases p with
    | none => exact ⟨_, rfl⟩
    | some p =>
      obtain ⟨first, hzero⟩ := hfirst p ps rfl
      simp only [RowProof.checkRows, Word.ideal, ok_bind, deref_eq_ok.2 hzero]
      refine .guard ⟨_, rfl⟩ fun hindex => .guard ⟨_, rfl⟩ fun htotal => ?_
      refine .guard ⟨_, rfl⟩ fun hpow => .guard ⟨_, rfl⟩ fun hhalf => ?_
      rw [not_or, not_not] at hpow
      refine (ih fun _ _ _ => ⟨first, hzero⟩).weaken fun _ hrest => ?_
      rw [zipIdx_cons, forall_mem_cons]
      refine ⟨⟨first, p, hzero, rfl, ?_⟩, hrest⟩
      exact ⟨not_not.1 hindex, not_not.1 htotal, hpow.1, hpow.2, not_le.1 hhalf⟩

theorem verifyRows_meets (hlen : i + ps.length ≤ rp.rowRoots.length)
    (hps : none ∉ ps) : Meets Failure.IsErr (rp.verifyFrom h root ps i) fun valid => valid = true →
      ∀ x ∈ ps.zipIdx i, ∀ p, x.1 = some p → ∃ r rowRoot, root = some r ∧
        rp.rowRoots[x.2]? = some rowRoot ∧ p.verify h r rowRoot = .ok () := by
  induction ps generalizing i with
  | nil => exact fun _ => nofun
  | cons p ps ih =>
    rw [length_cons] at hlen
    have hrow : rp.rowRoots[i]? = some rp.rowRoots[i] := getElem?_eq_getElem (by omega)
    rw [RowProof.verifyFrom, hrow]
    cases p with
    | none => exact absurd mem_cons_self hps
    | some p =>
      cases root with
      | none => exact nofun
      | some r =>
        simp only [verifyPointer, ok_bind, decide_eq_true_eq]
        refine .ite (fun hverify => ?_) fun _ => nofun
        have hps' : none ∉ ps := fun hmem => hps (mem_cons_of_mem _ hmem)
        refine (ih (by omega) hps').weaken fun _ hrest hvalid => ?_
        rw [zipIdx_cons, forall_mem_cons]
        refine ⟨fun q hq => ?_, hrest hvalid⟩
        obtain rfl : p = q := some.inj hq
        exact ⟨r, _, rfl, hrow, hverify⟩

/-- What `RowProof.Validate` has checked. -/
structure RowsValid (h : Digest) (rp : RowProof) (root : Option Bytes) : Prop where
  rows : rp.endRow.toNat + 1 = rp.startRow.toNat + rp.rowRoots.length
  length : rp.proofs.length = rp.rowRoots.length
  nonempty : rp.rowRoots ≠ []
  notMem : none ∉ rp.proofs
  checked : ∀ (i : Nat) (p : Option Proof), rp.proofs[i]? = some p →
    ∃ first proof, rp.proofs[0]? = some (some first) ∧ p = some proof ∧ RowChecked rp first proof i
  verified : ∀ (i : Nat) (p : Proof), rp.proofs[i]? = some (some p) → ∃ r rowRoot, root = some r ∧
    rp.rowRoots[i]? = some rowRoot ∧ p.verify h r rowRoot = .ok ()

theorem validate_rows_congr (hw : w.Exact) : rp.validate w h root = rp.validate .ideal h root := by
  have hend := rp.endRow.toNat_lt
  have hstart := rp.startRow.toNat_lt
  unfold RowProof.validate
  refine ite_congr rfl (fun _ => rfl) fun hempty => ?_
  refine ite_congr rfl (fun _ => rfl) fun hlt => ?_
  have hle : rp.startRow.toNat ≤ rp.endRow.toNat := UInt32.le_iff_toNat_le.1 (UInt32.not_lt.1 hlt)
  simp only [hw.uint64 (rp.endRow.toNat - rp.startRow.toNat) (by omega) (by omega), Word.ideal,
    bind, Except.bind, hw.uint64 (rp.endRow.toNat - rp.startRow.toNat + 1) (by omega) (by omega)]
  refine ite_congr rfl (fun _ => rfl) fun hnum => ?_
  refine ite_congr rfl (fun _ => rfl) fun hlen => ?_
  rw [checkRows_congr hw (by omega)]
  rfl

theorem validate_rows_meets :
    Meets Failure.IsErr (rp.validate .ideal h root) fun _ => RowsValid h rp root := by
  simp only [RowProof.validate, Word.ideal, ok_bind]
  refine .guard ⟨_, rfl⟩ fun hempty => .guard ⟨_, rfl⟩ fun hlt => ?_
  refine .guard ⟨_, rfl⟩ fun hnum => .guard ⟨_, rfl⟩ fun hlen => ?_
  refine .bind (checkRows_meets fun p rest hps => ⟨p, by rw [hps]; rfl⟩) fun _ hchecked => ?_
  have hchecked' : ∀ (i : Nat) (p : Option Proof), rp.proofs[i]? = some p → ∃ first proof,
      rp.proofs[0]? = some (some first) ∧ p = some proof ∧ RowChecked rp first proof i :=
    fun i p hp => hchecked (p, i) (mk_mem_zipIdx_iff_getElem?.2 hp)
  have hnone : none ∉ rp.proofs := by
    intro hmem
    obtain ⟨i, hi⟩ := mem_iff_getElem?.1 hmem
    obtain ⟨first, proof, -, ⟨⟩, -⟩ := hchecked' i none hi
  refine .bind (verifyRows_meets (by omega) hnone) fun valid hvalid => ?_
  refine .ite (fun htrue => ?_) fun _ => ⟨_, rfl⟩
  constructor
  case rows => omega
  case length => exact not_not.1 hlen
  case nonempty =>
    intro hnil
    simp [hnil] at hempty
  case notMem => exact hnone
  case checked => exact hchecked'
  case verified =>
    intro i p hp
    exact hvalid htrue (some p, i) (mk_mem_zipIdx_iff_getElem?.2 hp) p rfl

end Rows

section Shares
variable {w : Word} {verifyInclusion : VerifyInclusion} {sp : ShareProof}

def shareTotal : List (Option NMTProof) → Int
  | [] => 0
  | none :: ps => shareTotal ps
  | some p :: ps => p.stop.toInt - p.start.toInt + shareTotal ps

def Ranged (p : Option NMTProof) : Prop :=
  ∃ q, p = some q ∧ 0 ≤ q.start.toInt ∧ q.start.toInt < q.stop.toInt

theorem toInt_range {start stop : Int32} (hstart : ¬start < 0) (hstop : ¬stop ≤ start) :
    0 ≤ start.toInt ∧ start.toInt < stop.toInt ∧ stop.toInt - start.toInt ≤ 2 ^ 31 - 1 := by
  have h0 : 0 ≤ start.toInt := by
    have := Int32.lt_iff_toInt_lt.not.1 hstart
    simpa using this
  have hlt : start.toInt < stop.toInt := not_le.1 (Int32.le_iff_toInt_le.not.1 hstop)
  have hmax := stop.toInt_lt
  exact ⟨h0, hlt, by omega⟩

variable {ps : List (Option NMTProof)}

theorem countShares_congr (hw : w.Exact) {n : Int} (hn : 0 ≤ n)
    (hbound : n + ps.length * (2 ^ 31 - 1) < 2 ^ 63) :
    countShares w ps n = countShares .ideal ps n := by
  induction ps generalizing n with
  | nil => rfl
  | cons p ps ih =>
    cases p with
    | none => rfl
    | some p =>
      rw [countShares, countShares]
      refine ite_congr rfl (fun _ => rfl) fun hstart => ?_
      refine ite_congr rfl (fun _ => rfl) fun hstop => ?_
      have hrange := toInt_range hstart hstop
      rw [length_cons] at hbound
      push_cast at hbound
      simp only [hw.int64 (p.stop.toInt - p.start.toInt) (by omega) (by omega), bind, Except.bind,
        Word.ideal, hw.int64 (n + (p.stop.toInt - p.start.toInt)) (by omega) (by omega)]
      exact ih (by omega) (by omega)

theorem countShares_meets {v : Int → Int} (hw : ∀ x, w.int64 x = .ok (v x)) {n : Int} :
    Meets Failure.IsErr (countShares w ps n) fun m =>
      (∀ p ∈ ps, Ranged p) ∧ (v = id → m = n + shareTotal ps) := by
  induction ps generalizing n with
  | nil => exact ⟨nofun, fun _ => by simp [shareTotal]⟩
  | cons p ps ih =>
    cases p with
    | none => exact ⟨_, rfl⟩
    | some p =>
      simp only [countShares, hw, ok_bind]
      refine .guard ⟨_, rfl⟩ fun hstart => .guard ⟨_, rfl⟩ fun hstop => ih.weaken fun m hm => ?_
      have hrange := toInt_range hstart hstop
      refine ⟨forall_mem_cons.2 ⟨⟨p, rfl, hrange.1, hrange.2.1⟩, hm.1⟩, fun hv => ?_⟩
      rw [hm.2 hv, hv, shareTotal, id, id]
      omega

theorem shareTotal_nonneg (hps : ∀ p ∈ ps, Ranged p) : 0 ≤ shareTotal ps := by
  induction ps with
  | nil => exact le_rfl
  | cons p ps ih =>
    obtain ⟨⟨q, rfl, h0, hlt⟩, htail⟩ := forall_mem_cons.1 hps
    have := ih htail
    rw [shareTotal]
    omega

theorem shareTotal_le (hps : ∀ p ∈ ps, Ranged p) : shareTotal ps ≤ ps.length * (2 ^ 31 - 1) := by
  induction ps with
  | nil => simp [shareTotal]
  | cons p ps ih =>
    obtain ⟨⟨q, rfl, h0, hlt⟩, htail⟩ := forall_mem_cons.1 hps
    have := ih htail
    have hmax := q.stop.toInt_lt
    rw [shareTotal, length_cons]
    push_cast
    omega

theorem checkPositions_meets {width : Int}
    (hps : ∀ p ∈ ps, Ranged p) (hlen : i + ps.length ≤ sp.rowProof.proofs.length)
    (hproofs : none ∉ sp.rowProof.proofs) :
    Meets Failure.IsErr (sp.checkPositions width ps i) fun _ => ∀ x ∈ ps.zipIdx i, ∀ q,
      x.1 = some q → ∃ row, sp.rowProof.proofs[x.2]? = some (some row) ∧
        row.index.toInt < width ∧ q.stop.toInt ≤ width := by
  induction ps generalizing i with
  | nil => exact nofun
  | cons p ps ih =>
    obtain ⟨⟨q, rfl, -, -⟩, htail⟩ := forall_mem_cons.1 hps
    rw [length_cons] at hlen
    obtain ⟨row, hrow⟩ : ∃ row, sp.rowProof.proofs[i]? = some (some row) := by
      cases hp : sp.rowProof.proofs[i] with
      | none => exact absurd (hp ▸ getElem_mem (by omega)) hproofs
      | some row => exact ⟨row, List.getElem?_eq_some_iff.2 ⟨by omega, hp⟩⟩
    rw [checkPositions, deref_eq_ok.2 hrow, ok_bind]
    refine .guard ⟨_, rfl⟩ fun hindex => .guard ⟨_, rfl⟩ fun hwidth => ?_
    refine .guard ⟨_, rfl⟩ fun _ => .guard ⟨_, rfl⟩ fun _ => ?_
    refine (ih htail (by omega)).weaken fun _ hrest => ?_
    rw [zipIdx_cons, forall_mem_cons]
    refine ⟨fun q' hq' => ?_, hrest⟩
    obtain rfl : q = q' := some.inj hq'
    exact ⟨row, hrow, not_le.1 hindex, not_lt.1 hwidth⟩

theorem verifyShares_congr (hw : w.Exact) {cursor : Int}
    (hps : ∀ p ∈ ps, Ranged p) (hcursor : 0 ≤ cursor) (hbound : cursor + shareTotal ps < 2 ^ 63) :
    sp.verifyFrom w verifyInclusion ps i cursor =
      sp.verifyFrom .ideal verifyInclusion ps i cursor := by
  induction ps generalizing i cursor with
  | nil => rfl
  | cons p ps ih =>
    obtain ⟨⟨q, rfl, h0, hlt⟩, htail⟩ := forall_mem_cons.1 hps
    have hrest := shareTotal_nonneg htail
    rw [shareTotal] at hbound
    rw [verifyFrom, verifyFrom]
    simp only [hw.int64 (q.stop.toInt - q.start.toInt) (by omega) (by omega), bind, Except.bind,
      Word.ideal, hw.int64 (cursor + (q.stop.toInt - q.start.toInt)) (by omega) (by omega)]
    have hnext : ∀ i, sp.verifyFrom w verifyInclusion ps i
        (cursor + (q.stop.toInt - q.start.toInt)) = sp.verifyFrom .ideal verifyInclusion ps i
          (cursor + (q.stop.toInt - q.start.toInt)) :=
      fun i => ih htail (by omega) (by omega)
    simp only [hnext]
    rfl

def slice (cells : List Bytes) (start stop : Int) : List Bytes :=
  (cells.drop start.toNat).take (stop - start).toNat

/-- The shares at the positions that share proofs claim, from a row on. -/
def claimedFrom (rows : List (List Bytes)) : Nat → List (Option NMTProof) → Option (List Bytes)
  | _, [] => some []
  | _, none :: _ => none
  | row, some p :: ps =>
    match rows[row]? with
    | none => none
    | some cells =>
      if p.stop.toInt ≤ cells.length then
        (claimedFrom rows (row + 1) ps).map (slice cells p.start.toInt p.stop.toInt ++ ·)
      else none

/-- The inclusion proofs are sound for a row: an accepted range of leaves is that of the row. -/
def InclusionSound (verifyInclusion : VerifyInclusion) (cells : List Bytes) (root : Bytes) : Prop :=
  ∀ (start stop : Int) (nodes : List Bytes) (ns : Bytes) (leaves : List Bytes), 0 ≤ start →
    start < stop → stop ≤ cells.length →
    verifyInclusion start stop nodes ns leaves root = true → leaves = slice cells start stop

theorem verifyShares_meets {i : Nat} {cursor : Int} (hps : ∀ p ∈ ps, Ranged p)
    (hcursor : 0 ≤ cursor) (hlen : i + ps.length ≤ sp.rowProof.rowRoots.length)
    (htotal : cursor + shareTotal ps = sp.data.length) :
    Meets Failure.IsErr (sp.verifyFrom .ideal verifyInclusion ps i cursor) fun valid =>
      valid = true → ∀ (rows : List (List Bytes)) (start : Nat),
        (∀ x ∈ ps.zipIdx i, ∀ q root, x.1 = some q → sp.rowProof.rowRoots[x.2]? = some root →
          ∃ cells : List Bytes, rows[start + x.2]? = some cells ∧ q.stop.toInt ≤ cells.length ∧
            InclusionSound verifyInclusion cells root) →
        claimedFrom rows (start + i) ps = some (sp.data.drop cursor.toNat) := by
  induction ps generalizing i cursor with
  | nil =>
    intro _ rows start _
    rw [shareTotal] at htotal
    rw [claimedFrom, drop_eq_nil_of_le (by omega)]
  | cons p ps ih =>
    obtain ⟨⟨q, rfl, h0, hlt⟩, htail⟩ := forall_mem_cons.1 hps
    rw [shareTotal] at htotal
    rw [length_cons] at hlen
    have hrest := shareTotal_nonneg htail
    have hroot : sp.rowProof.rowRoots[i]? = some sp.rowProof.rowRoots[i] :=
      getElem?_eq_getElem (by omega)
    simp only [verifyFrom, Word.ideal, ok_bind, hroot]
    refine .ite (fun _ => nofun) fun _ => ?_
    rw [if_neg (by omega), if_neg (by omega)]
    refine .ite (fun hvalid => ?_) fun _ => nofun
    refine (ih htail (by omega) (by omega) (by omega)).weaken fun _ ih htrue rows start hrows => ?_
    rw [zipIdx_cons, forall_mem_cons] at hrows
    have hnext := ih htrue rows start hrows.2
    rw [← Nat.add_assoc] at hnext
    obtain ⟨cells, hcells, hle, hsound⟩ := hrows.1 q _ rfl hroot
    have hleaves := hsound _ _ _ _ _ h0 hlt hle hvalid
    have hsum : (cursor + (q.stop.toInt - q.start.toInt)).toNat = cursor.toNat +
        (cursor + (q.stop.toInt - q.start.toInt) - cursor).toNat := by omega
    rw [claimedFrom, hcells]
    dsimp only
    rw [if_pos hle, hnext, map_some, ← hleaves, hsum, ← drop_drop, take_append_drop]

end Shares

/-- An extended square of a given width of the original one, with the roots of its rows and
columns. -/
structure ExtendedSquare where
  width : Nat
  rows : List (List Bytes)
  rowRoots : List Bytes
  colRoots : List Bytes
  width_pos : 0 < width
  rows_length : rows.length = 2 * width
  row_length : ∀ row ∈ rows, row.length = 2 * width
  rowRoots_length : rowRoots.length = 2 * width
  colRoots_length : colRoots.length = 2 * width

namespace ExtendedSquare

def roots (sq : ExtendedSquare) : List Bytes := sq.rowRoots ++ sq.colRoots

def dataRoot (h : Digest) (sq : ExtendedSquare) : Bytes := hashFromByteSlices h sq.roots

def Sound (verifyInclusion : VerifyInclusion) (sq : ExtendedSquare) : Prop :=
  ∀ (i : Nat) (cells : List Bytes) (root : Bytes), sq.rows[i]? = some cells →
    sq.rowRoots[i]? = some root → InclusionSound verifyInclusion cells root

end ExtendedSquare

/-- No string that a row proof hashes collides with one under the data root. -/
def CollisionFree (h : Digest) (sq : ExtendedSquare) (sp : ShareProof) : Prop :=
  ∀ (i : Nat) (proof : Proof) (rowRoot : Bytes), sp.rowProof.proofs[i]? = some (some proof) →
    sp.rowProof.rowRoots[i]? = some rowRoot →
    NoCollision h (treeInputs h sq.roots) (proof.inputs h rowRoot)

section Validate
variable {w : Word} {h : Digest} {verifyInclusion : VerifyInclusion} {sp : ShareProof}
  {root : Option Bytes}

/-- A row proof under a data root is of the row at its index, and the width it states is below that
of the extended square. -/
theorem row_of_dataRoot {sq : ExtendedSquare}
    {rp : RowProof} {first proof : Proof} {rowRoot : Bytes} (hchecked : RowChecked rp first proof i)
    (hverify : proof.verify h (sq.dataRoot h) rowRoot = .ok ())
    (hfree : NoCollision h (treeInputs h sq.roots) (proof.inputs h rowRoot)) :
    first.total.toInt.tdiv 4 < 2 * sq.width ∧ (rp.startRow.toNat + i < first.total.toInt.tdiv 4 →
        sq.rowRoots[rp.startRow.toNat + i]? = some rowRoot) := by
  have hlength : sq.roots.length = 4 * sq.width := by
    rw [ExtendedSquare.roots, length_append, sq.rowRoots_length, sq.colRoots_length]
    omega
  have hpos := sq.width_pos
  obtain ⟨b, hb⟩ := total_eq_pow hchecked.four hchecked.bits
  obtain ⟨-, -, hleaf, hcompute⟩ := Proof.verify_eq_ok.1 hverify
  have hhalf := hchecked.half
  have hquarter : first.total.toInt.tdiv 4 = (2 ^ b : Nat) := by
    rw [← hchecked.total, hb, pow_add]
    push_cast
    norm_num
  have hdiv : proof.total.toInt.tdiv 2 = (2 ^ (b + 1) : Nat) := by
    rw [hb, pow_add, pow_add]
    push_cast
    rw [show (2 : Int) ^ b * 4 = 2 ^ b * 2 * 2 by ring]
    exact Int.mul_tdiv_cancel _ (by norm_num)
  rw [hdiv] at hhalf
  unfold Proof.computeRootHash at hcompute
  unfold Proof.inputs at hfree
  rw [hleaf, hb] at hcompute hfree
  rw [ExtendedSquare.dataRoot, hashFromByteSlices_eq] at hcompute
  obtain ⟨hsplit, hget⟩ := leaf_of_firstHalf (by omega) hhalf hfree hcompute
  have hlt := splitPoint_lt (show 2 ≤ sq.roots.length by omega)
  have hsucc : 2 ^ (b + 1) = 2 * 2 ^ b := by rw [pow_succ, mul_comm]
  refine ⟨by omega, fun hindex => ?_⟩
  have hnat : proof.index.toInt.toNat = rp.startRow.toNat + i := by
    have := hchecked.index
    omega
  rw [hnat, ExtendedSquare.roots, getElem?_append_left] at hget
  · exact hget
  · rw [sq.rowRoots_length]
    omega

/-- What an accepted share proof has passed. -/
structure Accepted (h : Digest) (verifyInclusion : VerifyInclusion) (sp : ShareProof)
    (root : Option Bytes) : Prop where
  lengths : sp.shareProofs.length = sp.rowProof.rowRoots.length
  rows : RowsValid h sp.rowProof root
  positions : ∃ first, sp.rowProof.proofs[0]? = some (some first) ∧ ∀ x ∈ sp.shareProofs.zipIdx,
    ∀ q, x.1 = some q → ∃ row, sp.rowProof.proofs[x.2]? = some (some row) ∧
      row.index.toInt < first.total.toInt.tdiv 4 ∧ q.stop.toInt ≤ first.total.toInt.tdiv 4
  verified : ∀ (rows : List (List Bytes)) (start : Nat),
    (∀ x ∈ sp.shareProofs.zipIdx, ∀ q root, x.1 = some q →
      sp.rowProof.rowRoots[x.2]? = some root → ∃ cells : List Bytes,
        rows[start + x.2]? = some cells ∧ q.stop.toInt ≤ cells.length ∧
          InclusionSound verifyInclusion cells root) →
    claimedFrom rows start sp.shareProofs = some sp.data

theorem RowsValid.length_le (hrows : RowsValid h sp.rowProof root) :
    sp.rowProof.rowRoots.length ≤ 2 ^ 32 := by
  have hend := sp.rowProof.endRow.toNat_lt
  have := hrows.rows
  omega

theorem validateIn_congr (hw : w.Exact) (hlen : sp.shareProofs.length ≤ 2 ^ 32 + 2) :
    sp.validateIn w h verifyInclusion root = sp.validateIn .ideal h verifyInclusion root := by
  unfold validateIn
  refine ite_congr rfl (fun _ => rfl) fun hns => ?_
  rw [countShares_congr hw le_rfl (by omega)]
  cases hcount : countShares .ideal sp.shareProofs 0 with
  | error e => rfl
  | ok n =>
    obtain ⟨hranged, hn⟩ := (countShares_meets fun _ => rfl).of_ok hcount
    have hn := hn rfl
    have hle := shareTotal_le hranged
    simp only [ok_bind]
    refine ite_congr rfl (fun _ => rfl) fun hlengths => ?_
    refine ite_congr rfl (fun _ => rfl) fun hdata => ?_
    rw [validate_rows_congr hw]
    unfold verifyProof
    rw [verifyShares_congr hw hranged le_rfl (by omega)]

theorem verifyProof_meets {Q : Bool → Prop}
    (hloop : Meets Failure.IsErr (sp.verifyFrom w verifyInclusion sp.shareProofs 0 0) Q)
    (hfalse : Q false) : Meets Failure.IsErr (sp.verifyProof w verifyInclusion) Q :=
  .ite (fun _ => hfalse) fun _ => .ite (fun _ => hfalse) fun _ => hloop

theorem validateIn_meets : Meets Failure.IsErr (sp.validateIn .ideal h verifyInclusion root)
    fun _ => Accepted h verifyInclusion sp root := by
  unfold validateIn
  refine .guard ⟨_, rfl⟩ fun _ => ?_
  refine .bind (countShares_meets fun _ => rfl) fun n ⟨hranged, hn⟩ => ?_
  have hn := hn rfl
  refine .guard ⟨_, rfl⟩ fun hlengths => .guard ⟨_, rfl⟩ fun hdata => ?_
  refine .bind validate_rows_meets fun _ hrows => ?_
  have hlen := hrows.length
  obtain ⟨first, -, hfirst, -⟩ := hrows.checked 0 _
    (getElem?_eq_getElem (hlen ▸ length_pos_iff.2 hrows.nonempty))
  rw [deref_eq_ok.2 hfirst, ok_bind]
  refine .bind (checkPositions_meets hranged (by omega) hrows.notMem) fun _ hpositions => ?_
  refine .bind (verifyProof_meets (verifyShares_meets hranged le_rfl (by omega) (by omega)) nofun)
    fun valid hvalid => .ite (fun htrue => ?_) fun _ => ⟨_, rfl⟩
  constructor
  case lengths => exact not_not.1 hlengths
  case rows => exact hrows
  case positions => exact ⟨first, hfirst, hpositions⟩
  case verified => exact hvalid htrue

/-- With more share proofs than rows can be, the machine rejects before it uses the sum. -/
theorem validate_of_many (hmany : 2 ^ 32 < sp.shareProofs.length) :
    Meets Failure.IsErr (sp.validate h verifyInclusion root) fun _ => False := by
  unfold validate validateIn
  refine .guard ⟨_, rfl⟩ fun _ => .bind (countShares_meets fun _ => rfl) fun n _ => ?_
  refine .guard ⟨_, rfl⟩ fun hlengths => .guard ⟨_, rfl⟩ fun _ => ?_
  rw [validate_rows_congr Word.exact_machine]
  refine .bind validate_rows_meets fun _ hrows => ?_
  have := hrows.length_le
  omega

theorem Accepted.claimed {sq : ExtendedSquare} (hacc : Accepted h verifyInclusion sp root)
    (hroot : root = some (sq.dataRoot h)) (hsound : sq.Sound verifyInclusion)
    (hfree : CollisionFree h sq sp) :
    claimedFrom sq.rows sp.rowProof.startRow.toNat sp.shareProofs = some sp.data := by
  obtain ⟨first, hfirst, hpositions⟩ := hacc.positions
  refine hacc.verified sq.rows _ fun x hx q rowRoot hq hrowRoot => ?_
  obtain ⟨row, hrow, hindex, hstop⟩ := hpositions x hx q hq
  obtain ⟨first', proof, hfirst', hproof, hchecked⟩ := hacc.rows.checked x.2 _ hrow
  obtain rfl := some.inj (some.inj (hfirst.symm.trans hfirst'))
  cases hproof
  obtain ⟨r, rowRoot', hr, hrowRoot', hverify⟩ := hacc.rows.verified x.2 row hrow
  obtain rfl := some.inj (hrowRoot.symm.trans hrowRoot')
  obtain rfl := some.inj (hr.symm.trans hroot)
  obtain ⟨hwidth, hget⟩ := row_of_dataRoot hchecked hverify (hfree x.2 row rowRoot hrow hrowRoot)
  have hin := hget (hchecked.index ▸ hindex)
  have hlt : sp.rowProof.startRow.toNat + x.2 < sq.rows.length := by
    rw [sq.rows_length, ← sq.rowRoots_length]
    exact (List.getElem?_eq_some_iff.1 hin).1
  refine ⟨sq.rows[sp.rowProof.startRow.toNat + x.2], getElem?_eq_getElem hlt, ?_, ?_⟩
  · rw [sq.row_length _ (getElem_mem hlt)]
    push_cast
    omega
  · exact hsound _ _ _ (getElem?_eq_getElem hlt) hin

end Validate

/-- A valid share proof pins the shares. Validation does not panic; with more share proofs than
`int64` can count it does not accept, and otherwise does not wrap. -/
theorem validate_pins_shares (h : Digest)
    (verifyInclusion : VerifyInclusion) (sp : ShareProof) (root : Option Bytes) :
    (∀ sq : ExtendedSquare, root = some (sq.dataRoot h) → sq.Sound verifyInclusion →
      CollisionFree h sq sp → sp.validate h verifyInclusion root = .ok () →
      claimedFrom sq.rows sp.rowProof.startRow.toNat sp.shareProofs = some sp.data ∧
        sp.rowProof.endRow.toNat + 1 = sp.rowProof.startRow.toNat + sp.shareProofs.length) ∧
    Plain (sp.validate h verifyInclusion root) ∧ (sp.shareProofs.length ≤ 2 ^ 32 + 2 →
      sp.validate h verifyInclusion root = sp.validateIn .checked h verifyInclusion root) ∧
    (2 ^ 32 < sp.shareProofs.length → sp.validate h verifyInclusion root ≠ .ok ()) := by
  refine ⟨fun sq hroot hsound hfree hok => ?_, ?_, fun hlen => ?_, fun hmany hok => ?_⟩
  · have hlen : sp.shareProofs.length ≤ 2 ^ 32 := by
      by_contra hmany
      exact (validate_of_many (not_le.1 hmany)).of_ok hok
    unfold validate at hok
    rw [validateIn_congr Word.exact_machine (by omega)] at hok
    have hacc := validateIn_meets.of_ok hok
    refine ⟨hacc.claimed hroot hsound hfree, ?_⟩
    rw [hacc.rows.rows, hacc.lengths]
  · by_cases hlen : sp.shareProofs.length ≤ 2 ^ 32
    · unfold validate
      rw [validateIn_congr Word.exact_machine (by omega)]
      exact plain_of_meets validateIn_meets
    · exact plain_of_meets (validate_of_many (not_le.1 hlen))
  · unfold validate
    rw [validateIn_congr Word.exact_machine hlen, validateIn_congr Word.exact_checked hlen]
  · exact (validate_of_many hmany).of_ok hok

section Examples

/-- A square of width two, with shares of one byte and rows and columns as their own roots. -/
def smallSquare : ExtendedSquare where
  width := 2
  rows := [[[1], [2], [3], [4]], [[5], [6], [7], [8]], [[9], [10], [11], [12]],
    [[13], [14], [15], [16]]]
  rowRoots := [[1, 2, 3, 4], [5, 6, 7, 8], [9, 10, 11, 12], [13, 14, 15, 16]]
  colRoots := [[1, 5, 9, 13], [2, 6, 10, 14], [3, 7, 11, 15], [4, 8, 12, 16]]
  width_pos := by decide
  rows_length := rfl
  row_length := by decide
  rowRoots_length := rfl
  colRoots_length := rfl

def readRoot : VerifyInclusion := fun start stop _ _ leaves root =>
  leaves = slice (root.map fun b => [b]) start stop

theorem sound_smallSquare : smallSquare.Sound readRoot := by
  intro i cells root hcells hroot start stop nodes ns leaves _ _ _ hread
  have hrows : smallSquare.rows = smallSquare.rowRoots.map fun root => root.map fun b => [b] := rfl
  rw [hrows, List.getElem?_map, hroot] at hcells
  cases hcells
  exact of_decide_eq_true hread

/-- The last share of the first row and the first one of the second. -/
def twoRows : ShareProof where
  data := [[2], [5]]
  shareProofs := [some ⟨1, 2, []⟩, some ⟨0, 1, []⟩]
  namespaceID := .replicate 28 0
  rowProof := ⟨[[1, 2, 3, 4], [5, 6, 7, 8]],
    ((proofsFromByteSlices paddedDigest smallSquare.roots).2.take 2).map some, 0, 1⟩
  namespaceVersion := 0

theorem validate_pins_shares_twoRows :
    twoRows.validate paddedDigest readRoot (some (smallSquare.dataRoot paddedDigest)) = .ok () ∧
      claimedFrom smallSquare.rows 0 twoRows.shareProofs = some [[2], [5]] := by
  have hok : twoRows.validate paddedDigest readRoot
      (some (smallSquare.dataRoot paddedDigest)) = .ok () := by decide +kernel
  have hproofs : ∀ p ∈ twoRows.rowProof.proofs.zip twoRows.rowProof.rowRoots, ∀ proof ∈ p.1,
      NoCollision paddedDigest (treeInputs paddedDigest smallSquare.roots)
        (proof.inputs paddedDigest p.2) := by decide +kernel
  have hfree : CollisionFree paddedDigest smallSquare twoRows := fun i proof rowRoot hi hrow =>
    hproofs (some proof, rowRoot) (mem_of_getElem? (getElem?_zip_eq_some.2 ⟨hi, hrow⟩)) proof rfl
  exact ⟨hok, ((validate_pins_shares paddedDigest readRoot twoRows _).1 smallSquare rfl
    sound_smallSquare hfree hok).1⟩

/-- More share proofs than `int64` can count, each with the largest range. -/
def manyShares : ShareProof where
  data := []
  shareProofs := .replicate (2 ^ 32 + 3) (some ⟨0, 2147483647, []⟩)
  namespaceID := .replicate 28 0
  rowProof := ⟨[], [], 0, 0⟩
  namespaceVersion := 0

theorem countShares_replicate {k : Nat} {n : Int} (hn : 0 ≤ n) (hlt : n < 2 ^ 63)
    (hge : 2 ^ 63 ≤ n + k * (2 ^ 31 - 1)) :
    countShares .checked (.replicate k (some ⟨0, 2147483647, []⟩)) n = .error .wraparound := by
  induction k generalizing n with
  | zero => simp at hge; omega
  | succ k ih =>
    have hused : ((2147483647 : Int32).toInt - (0 : Int32).toInt) = 2 ^ 31 - 1 := by decide
    rw [replicate_succ, countShares, if_neg (by decide), if_neg (by decide)]
    simp only [hused, Word.exact_checked.int64 (2 ^ 31 - 1) (by decide) (by decide), bind,
      Except.bind]
    push_cast at hge
    by_cases hnext : n + (2 ^ 31 - 1) < 2 ^ 63
    · rw [Word.exact_checked.int64 _ (by omega) hnext]
      exact ih (by omega) hnext (by omega)
    · have hwrap : Word.checked.int64 (n + (2 ^ 31 - 1)) = .error .wraparound :=
        if_neg fun hrange => hnext hrange.2
      rw [hwrap]

/-- The sum over the share proofs wraps around, before the number of rows is known. -/
theorem manyShares_wraps :
    manyShares.validateIn .checked paddedDigest readRoot none = .error .wraparound := by
  have hcount : countShares .checked manyShares.shareProofs 0 = .error .wraparound :=
    countShares_replicate le_rfl (by norm_num) (by norm_num)
  unfold validateIn
  rw [if_neg (by decide), hcount]
  rfl

end Examples

end CelestiaCore.Shares
