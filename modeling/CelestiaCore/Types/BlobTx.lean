import CelestiaCore.Program.Fallible
import CelestiaCore.Wire.Generated

/-!
# Unwrapping a `BlobTx`

`types/blob_tx.go` under the legacy rules: the scanner and the reference agree on every byte string.
-/
namespace CelestiaCore
open Wire Wire.Protowire Wire.Generated List Generated Option Program

/-- `share.NamespaceIDSize`. -/
def namespaceIDSize : Nat := 28

/-- `squaretx.ProtoBlobTxTypeID`, the bytes of "BLOB". -/
def protoBlobTxTypeID : Bytes := [66, 76, 79, 66]

structure Blob where
  namespaceId : Bytes
  data : Bytes
  shareVersion : UInt32
  namespaceVersion : UInt32
  deriving DecidableEq, Repr

structure BlobTx where
  tx : Bytes
  blobs : List Blob
  typeId : Bytes
  deriving DecidableEq, Repr

/-- A field of bytes in a generated `switch`. -/
def bytesStep {M : Type} (set : Bytes → Option M) (wireType : Nat) (b : Bytes) : Step M :=
  if wireType ≠ 2 then .error
  else
    match readDelimited b with
    | none => .error
    | some (v, n) =>
      match set v with
      | none => .error
      | some m => .value m n

/-- A field of type `uint32` in a generated `switch`. -/
def uint32Step {M : Type} (set : UInt32 → M) (wireType : Nat) (b : Bytes) : Step M :=
  if wireType ≠ 0 then .error
  else
    match readVarint b with
    | none => .error
    | some (v, n) => .value (set (UInt32.ofNat v)) n

def Blob.field (m : Blob) (fieldNum wireType : Nat) (b : Bytes) : Step Blob :=
  match fieldNum with
  | 1 => bytesStep (fun v => some { m with namespaceId := v }) wireType b
  | 2 => bytesStep (fun v => some { m with data := v }) wireType b
  | 3 => uint32Step (fun v => { m with shareVersion := v }) wireType b
  | 4 => uint32Step (fun v => { m with namespaceVersion := v }) wireType b
  | _ => .unknown

/-- `Blob.Unmarshal` on the zero message. -/
def Blob.unmarshal (b : Bytes) : Option Blob := Generated.unmarshal Blob.field ⟨[], [], 0, 0⟩ b

def BlobTx.field (m : BlobTx) (fieldNum wireType : Nat) (b : Bytes) : Step BlobTx :=
  match fieldNum with
  | 1 => bytesStep (fun v => some { m with tx := v }) wireType b
  | 2 => bytesStep (fun v => (Blob.unmarshal v).map fun blob =>
      { m with blobs := m.blobs ++ [blob] }) wireType b
  | 3 => bytesStep (fun v => some { m with typeId := v }) wireType b
  | _ => .unknown

def BlobTx.unmarshal (b : Bytes) : Option BlobTx := Generated.unmarshal BlobTx.field ⟨[], [], []⟩ b

def decodeLegacyBlobTx (tx : Bytes) : Bytes × Bool :=
  match BlobTx.unmarshal tx with
  | none => (tx, false)
  | some bTx =>
    if bTx.typeId ≠ protoBlobTxTypeID ∨ bTx.blobs.length = 0 then (tx, false)
    else if bTx.blobs.any fun b => b.namespaceId.length ≠ namespaceIDSize then (tx, false)
    else (bTx.tx, true)

/-- How a scan ends before its end: it cannot decide, it has seen that the bytes are no `BlobTx`, or
it slices out of range. -/
inductive Stop where
  | undecided
  | rejected
  | panic
  deriving DecidableEq, Repr

/-- The wire type that `scanLegacyBlob` wants for a field: its own for an unknown one. -/
def wantType (num typ : Nat) : Nat :=
  match num with
  | 1 | 2 => bytesType
  | 3 | 4 => varintType
  | _ => typ

/-- The loop of `scanLegacyBlob`, with the length of the last namespace ID. -/
def scanLegacyBlobFrom (nsLen : Nat) (b : Bytes) : Except Stop Nat :=
  if b = [] then .ok nsLen
  else
    match _htag : consumeTag b with
    | none => .error .undecided
    | some (num, typ, n) =>
      if typ ≠ wantType num typ then .error .rejected
      else
        match consumeFieldValue num typ (b.drop n) with
        | none => .error .undecided
        | some m =>
          let nsLen :=
            if num = 1 then ((consumeBytes (b.drop n)).map (·.1.length)).getD 0 else nsLen
          scanLegacyBlobFrom nsLen ((b.drop n).drop m)
  termination_by b.length
  decreasing_by
    have := consumeTag_count _htag
    simp only [length_drop]
    omega

def scanLegacyBlob (blob : Bytes) : Except Stop Unit :=
  match scanLegacyBlobFrom 0 blob with
  | .error e => .error e
  | .ok nsLen => if nsLen = namespaceIDSize then .ok () else .error .rejected

/-- The first pass of `scanLegacyBlobTx`: the framing, the inner transaction and the type ID. -/
def scanFields (inner typeID b : Bytes) : Except Stop (Bytes × Bytes) :=
  if b = [] then .ok (inner, typeID)
  else
    match _htag : consumeTag b with
    | none => .error .undecided
    | some (num, typ, n) =>
      if num = 1 ∨ num = 2 ∨ num = 3 then
        if typ ≠ bytesType then .error .rejected
        else
          match consumeBytes (b.drop n) with
          | none => .error .undecided
          | some (v, m) =>
            scanFields (if num = 1 then v else inner) (if num = 3 then v else typeID)
              ((b.drop n).drop m)
      else
        match consumeFieldValue num typ (b.drop n) with
        | none => .error .undecided
        | some m => scanFields inner typeID ((b.drop n).drop m)
  termination_by b.length
  decreasing_by
  all_goals
    have := consumeTag_count _htag
    simp only [length_drop]
    omega

/-- The second pass, over the blobs: it slices with the counts and does not look at their signs. -/
def scanBlobs (blobs : Nat) (b : Bytes) : Except Stop Nat :=
  if b = [] then .ok blobs
  else
    match _htag : consumeTag b with
    | none => .error .panic
    | some (num, typ, n) =>
      if num ≠ 2 then
        match consumeFieldValue num typ (b.drop n) with
        | none => .error .panic
        | some m => scanBlobs blobs ((b.drop n).drop m)
      else
        match consumeBytes (b.drop n) with
        | none => .error .panic
        | some (v, m) =>
          match scanLegacyBlob v with
          | .error e => .error e
          | .ok () => scanBlobs (blobs + 1) ((b.drop n).drop m)
  termination_by b.length
  decreasing_by
  all_goals
    have := consumeTag_count _htag
    simp only [length_drop]
    omega

/-- `scanLegacyBlobTx`: the inner transaction, or how the scan stops. -/
def scanLegacyBlobTx (tx : Bytes) : Except Stop Bytes := do
  let (inner, typeID) ← scanFields [] [] tx
  if typeID ≠ protoBlobTxTypeID then .error .rejected
  else do
    let blobs ← scanBlobs 0 tx
    if blobs = 0 then .error .rejected else .ok inner

/-- `unwrapLegacyBlobTx`; a slice out of range is an error. -/
def unwrapLegacyBlobTx (tx : Bytes) : Except String (Bytes × Bool) :=
  match scanLegacyBlobTx tx with
  | .ok inner => .ok (inner, true)
  | .error .rejected => .ok (tx, false)
  | .error .undecided => .ok (decodeLegacyBlobTx tx)
  | .error .panic => .error "slice bounds out of range"

/-- Why a scan stops: it does not slice out of range, and it rejects only what the reason allows. -/
def Stop.Because (reason : Prop) : Stop → Prop
  | undecided => True
  | rejected => reason
  | panic => False

theorem Stop.Because.imp {p q : Prop} {e : Stop} (h : e.Because p) (hpq : p → q) : e.Because q := by
  cases e with
  | undecided => trivial
  | rejected => exact hpq h
  | panic => exact h

theorem Stop.because_imp {α : Type} {p q : Prop} {x : Except Stop α} {P Q : α → Prop}
    (h : Meets (Stop.Because p) x P) (hpq : p → q) (hPQ : ∀ a, P a → Q a) :
    Meets (Stop.Because q) x Q :=
  h.mono (fun _ he => he.imp hpq) hPQ

variable {v : Bytes} {k : Nat}

theorem ne_nil_of_consumeTag {b : Bytes} {p : Nat × Nat × Nat} (htag : consumeTag b = some p) :
    b ≠ [] := by
  rintro rfl
  cases htag

section Decoder
variable {M : Type} {field : M → Nat → Nat → Bytes → Step M} {m : M} {b : Bytes} {num typ n : Nat}

theorem unmarshal_tag (htag : consumeTag b = some (num, typ, n)) : unmarshal field m b =
      if typ = endGroupType then none
      else
        match field m num typ (b.drop n) with
        | .error => none
        | .value m k => unmarshal field m (b.drop (n + k))
        | .unknown =>
          match skip b with
          | none => none
          | some k => if b.length < k then none else unmarshal field m (b.drop k) := by
  have hb := ne_nil_of_consumeTag htag
  obtain ⟨v, hv, hnum, rfl, hone, hlt⟩ := consumeTag_eq_some.1 htag
  have hfield : v / 8 % 2 ^ 32 = num := by omega
  rw [unmarshal, if_neg hb, (readVarint_of_consume hv).2]
  dsimp only
  rw [hfield]
  split_ifs with hend hbad
  · rfl
  · omega
  cases field m num (v % 8) (b.drop n) with
  | error => rfl
  | value => rfl
  | unknown =>
    dsimp only
    split
    case h_1 hskip => rw [hskip]
    case h_2 k hskip => rw [hskip]

theorem unmarshal_value {m' : M} (htag : consumeTag b = some (num, typ, n))
    (htyp : typ ≠ endGroupType) (hfield : field m num typ (b.drop n) = .value m' k) :
    unmarshal field m b = unmarshal field m' ((b.drop n).drop k) := by
  rw [unmarshal_tag htag, if_neg htyp, hfield, drop_drop]

theorem unmarshal_error (htag : consumeTag b = some (num, typ, n))
    (hfield : field m num typ (b.drop n) = .error) : unmarshal field m b = none := by
  rw [unmarshal_tag htag, hfield]
  exact ite_self _

theorem unmarshal_unknown (hb : b.length < 2 ^ 63) (htag : consumeTag b = some (num, typ, n))
    (hvalue : consumeFieldValue num typ (b.drop n) = some k)
    (hfield : field m num typ (b.drop n) = .unknown) :
    unmarshal field m b = unmarshal field m ((b.drop n).drop k) := by
  obtain ⟨hskip, hle⟩ := skip_of_consume hb htag hvalue
  rw [unmarshal_tag htag, if_neg (ne_endGroup_of_consume hvalue), hfield, hskip]
  dsimp only
  rw [if_neg (not_lt.2 hle), drop_drop]

theorem bytesStep_of_consume {f : Bytes → Option M} (hb : b.length < 2 ^ 63)
    (h : consumeBytes b = some (v, k)) : bytesStep f bytesType b =
      match f v with
      | none => .error
      | some m => .value m k := by
  unfold bytesStep
  rw [if_neg (by simp), readDelimited_of_consume hb h]

theorem uint32Step_of_consume {set : UInt32 → M} {v k : Nat} (h : consumeVarint b = some (v, k)) :
    uint32Step set varintType b = .value (set (UInt32.ofNat v)) k := by
  unfold uint32Step
  rw [if_neg (by simp), (readVarint_of_consume h).2]

theorem unmarshal_nil : unmarshal field m [] = some m := by
  rw [unmarshal, if_pos rfl]

end Decoder

section Blobs
variable {b : Bytes}

theorem consumeFieldValue_bytes {num : Nat} :
    consumeFieldValue num bytesType b = (consumeBytes b).map (·.2) := by
  unfold consumeFieldValue consumeFieldValueD
  rfl

theorem consumeFieldValue_varint {num : Nat} :
    consumeFieldValue num varintType b = (consumeVarint b).map (·.2) := by
  unfold consumeFieldValue consumeFieldValueD
  rfl

def nsLenAfter (num nsLen : Nat) (b : Bytes) : Nat :=
  if num = 1 then ((consumeBytes b).map (·.1.length)).getD 0 else nsLen

/-- What the generated decoder of a blob does with a value that `protowire` consumes. -/
theorem Blob.field_of_consume (hb : b.length < 2 ^ 63) {num typ k : Nat}
    (hwant : typ = wantType num typ) (h : consumeFieldValue num typ b = some k) (m : Blob) :
    Blob.field m num typ b = .unknown ∧ num ≠ 1 ∨ ∃ m', Blob.field m num typ b = .value m' k ∧
      m'.namespaceId.length = nsLenAfter num m.namespaceId.length b := by
  have hbytes (f : Bytes → Blob) (htyp : typ = bytesType) : ∃ v, consumeBytes b = some (v, k) ∧
      bytesStep (fun v => some (f v)) typ b = .value (f v) k := by
    subst htyp
    rw [consumeFieldValue_bytes] at h
    obtain ⟨⟨v, k'⟩, hv, rfl⟩ := map_eq_some_iff.1 h
    exact ⟨v, hv, bytesStep_of_consume hb hv⟩
  have hvarint (f : UInt32 → Blob) (htyp : typ = varintType) :
      ∃ v, uint32Step f typ b = .value (f v) k := by
    subst htyp
    rw [consumeFieldValue_varint] at h
    obtain ⟨⟨v, k'⟩, hv, rfl⟩ := map_eq_some_iff.1 h
    exact ⟨_, uint32Step_of_consume hv⟩
  unfold wantType at hwant
  unfold Blob.field nsLenAfter
  split at hwant
  · obtain ⟨v, hv, hstep⟩ := hbytes (fun v => { m with namespaceId := v }) hwant
    exact .inr ⟨_, hstep, by simp [hv]⟩
  · obtain ⟨v, -, hstep⟩ := hbytes (fun v => { m with data := v }) hwant
    exact .inr ⟨_, hstep, rfl⟩
  · obtain ⟨v, hstep⟩ := hvarint (fun v => { m with shareVersion := v }) hwant
    exact .inr ⟨_, hstep, rfl⟩
  · obtain ⟨v, hstep⟩ := hvarint (fun v => { m with namespaceVersion := v }) hwant
    exact .inr ⟨_, hstep, rfl⟩
  case h_5 h1 _ _ _ => exact .inl ⟨rfl, h1⟩

theorem Blob.field_of_wrongType {num typ : Nat} (hwant : typ ≠ wantType num typ) (m : Blob) :
    Blob.field m num typ b = .error := by
  unfold wantType at hwant
  unfold Blob.field bytesStep uint32Step
  split at hwant
  · exact if_pos hwant
  · exact if_pos hwant
  · exact if_pos hwant
  · exact if_pos hwant
  · exact absurd rfl hwant

/-- A blob that is scanned to its end decodes, with the namespace ID that was seen last; a blob that
is rejected does not decode. -/
theorem scanLegacyBlobFrom_meets (hb : b.length < 2 ^ 63) (m : Blob) :
    Meets (Stop.Because (unmarshal Blob.field m b = none))
      (scanLegacyBlobFrom m.namespaceId.length b) fun nsLen =>
        ∃ m', unmarshal Blob.field m b = some m' ∧ m'.namespaceId.length = nsLen := by
  induction hlen : b.length using Nat.strong_induction_on generalizing b m with
  | _ len ih =>
    subst hlen
    by_cases hnil : b = []
    · subst hnil
      rw [scanLegacyBlobFrom, if_pos rfl]
      exact ⟨m, unmarshal_nil, rfl⟩
    rw [scanLegacyBlobFrom, if_neg hnil]
    cases htag : consumeTag b with
    | none => trivial
    | some p =>
      obtain ⟨num, typ, n⟩ := p
      have hn := consumeTag_count htag
      have hdrop : (b.drop n).length = b.length - n := length_drop
      refine .ite (fun hwant => unmarshal_error htag (Blob.field_of_wrongType hwant m)) fun hwant => ?_
      rw [not_not] at hwant
      cases hvalue : consumeFieldValue num typ (b.drop n) with
      | none => trivial
      | some k =>
        have hrest : ((b.drop n).drop k).length < b.length := by
          rw [length_drop]
          omega
        show Meets _ (scanLegacyBlobFrom (nsLenAfter num m.namespaceId.length (b.drop n)) _) _
        rcases Blob.field_of_consume (by omega) hwant hvalue m with
          ⟨hfield, hone⟩ | ⟨m', hfield, hns⟩
        · rw [nsLenAfter, if_neg hone, unmarshal_unknown hb htag hvalue hfield]
          exact ih _ hrest (hrest.trans hb) m rfl
        · rw [← hns, unmarshal_value htag (ne_endGroup_of_consume hvalue) hfield]
          exact ih _ hrest (hrest.trans hb) m' rfl

/-- A blob as the legacy rules want it: it decodes and its namespace ID has the right length. -/
def Blob.WellFormed (b : Bytes) : Prop :=
  ∃ m, Blob.unmarshal b = some m ∧ m.namespaceId.length = namespaceIDSize

theorem scanLegacyBlob_meets (hb : b.length < 2 ^ 63) :
    Meets (Stop.Because ¬Blob.WellFormed b) (scanLegacyBlob b) fun _ => Blob.WellFormed b := by
  have hscan := scanLegacyBlobFrom_meets hb ⟨[], [], 0, 0⟩
  unfold scanLegacyBlob
  split
  case h_1 e hstop =>
    refine (hscan.of_error hstop).imp ?_
    rintro hnone ⟨m, hm, -⟩
    cases hnone.symm.trans hm
  case h_2 nsLen hend =>
    obtain ⟨m, hm, hns⟩ := hscan.of_ok hend
    refine .ite (fun hlen => ⟨m, hm, hns.trans hlen⟩) fun hlen => ?_
    rintro ⟨m', hm', hns'⟩
    obtain rfl := some.inj (hm.symm.trans hm')
    exact hlen (hns.symm.trans hns')

end Blobs

variable {vs : List Bytes}

section Payloads

def scanPayloads (blobs : Nat) : List Bytes → Except Stop Nat
  | [] => .ok blobs
  | v :: vs =>
    match scanLegacyBlob v with
    | .error e => .error e
    | .ok () => scanPayloads (blobs + 1) vs

theorem scanPayloads_meets (hvs : ∀ v ∈ vs, v.length < 2 ^ 63) (blobs : Nat) :
    Meets (Stop.Because ¬∀ v ∈ vs, Blob.WellFormed v) (scanPayloads blobs vs) fun total =>
      total = blobs + vs.length ∧ ∀ v ∈ vs, Blob.WellFormed v := by
  induction vs generalizing blobs with
  | nil => exact ⟨rfl, nofun⟩
  | cons v vs ih =>
    have hv := scanLegacyBlob_meets (hvs v mem_cons_self)
    have hrest := ih (fun w hw => hvs w (mem_cons_of_mem _ hw)) (blobs + 1)
    rw [forall_mem_cons, scanPayloads]
    split
    case h_1 e hstop => exact (hv.of_error hstop).imp fun hnot hall => hnot hall.1
    case h_2 hend =>
      refine Stop.because_imp hrest (fun hnot hall => hnot hall.2) ?_
      rintro total ⟨rfl, hall⟩
      exact ⟨by rw [length_cons]; omega, hv.of_ok hend, hall⟩

/-- The legacy rules on the blobs: all decode, and all namespace IDs have the right length. -/
theorem forall_wellFormed_iff : (∀ v ∈ vs, Blob.WellFormed v) ↔
    ∃ bs, vs.mapM Blob.unmarshal = some bs ∧
      ∀ blob ∈ bs, blob.namespaceId.length = namespaceIDSize := by
  induction vs with
  | nil => simp
  | cons v vs ih =>
    rw [forall_mem_cons, ih, mapM_cons]
    constructor
    · rintro ⟨⟨m, hm, hlen⟩, bs, hbs, hall⟩
      exact ⟨m :: bs, by simp [hm, hbs], forall_mem_cons.2 ⟨hlen, hall⟩⟩
    · rintro ⟨bs, hbs, hall⟩
      simp only [Option.bind_eq_bind, Option.bind_eq_some_iff, Option.pure_def,
        Option.some.injEq] at hbs
      obtain ⟨m, hm, bs', hbs', rfl⟩ := hbs
      rw [forall_mem_cons] at hall
      exact ⟨⟨m, hm, hall.1⟩, bs', hbs', hall.2⟩

theorem length_of_mapM {bs : List Blob}
    (h : vs.mapM Blob.unmarshal = some bs) : bs.length = vs.length := by
  induction vs generalizing bs with
  | nil => simp_all
  | cons v vs ih =>
    rw [mapM_cons] at h
    simp only [Option.bind_eq_bind, Option.bind_eq_some_iff, Option.pure_def,
      Option.some.injEq] at h
    obtain ⟨m, -, bs', hbs', rfl⟩ := h
    simp [ih hbs']

end Payloads

section Fields
variable {inner typeID b : Bytes}

/-- What the first pass says: the framing splits the bytes into fields, of which the generated
decoder takes the last transaction and type ID and all blobs. -/
def Framed (inner typeID b : Bytes) (r : Bytes × Bytes) : Prop :=
  ∃ vs : List Bytes, (∀ v ∈ vs, v.length < 2 ^ 63) ∧
    (∀ blobs, scanBlobs blobs b = scanPayloads blobs vs) ∧
    ∀ blobs, unmarshal BlobTx.field ⟨inner, blobs, typeID⟩ b =
      (vs.mapM Blob.unmarshal).map fun bs => ⟨r.1, blobs ++ bs, r.2⟩

def FieldsScan (inner typeID b : Bytes) (r : Except Stop (Bytes × Bytes)) : Prop :=
  Meets (Stop.Because (∀ m, unmarshal BlobTx.field m b = none)) r (Framed inner typeID b)

theorem scanBlobs_other {num typ n m : Nat} (htag : consumeTag b = some (num, typ, n))
    (hnum : num ≠ 2) (hvalue : consumeFieldValue num typ (b.drop n) = some m) (blobs : Nat) :
    scanBlobs blobs b = scanBlobs blobs ((b.drop n).drop m) := by
  rw [scanBlobs, if_neg (ne_nil_of_consumeTag htag), htag]
  dsimp only
  rw [if_pos hnum, hvalue]

theorem scanBlobs_blob {typ n m : Nat} (htag : consumeTag b = some (2, typ, n))
    (hv : consumeBytes (b.drop n) = some (v, m)) (blobs : Nat) :
    scanBlobs blobs b =
      match scanLegacyBlob v with
      | .error e => .error e
      | .ok () => scanBlobs (blobs + 1) ((b.drop n).drop m) := by
  rw [scanBlobs, if_neg (ne_nil_of_consumeTag htag), htag]
  dsimp only
  rw [if_neg (not_not.2 rfl), hv]

theorem FieldsScan.other {rest inner₁ typeID₁ : Bytes} {g : BlobTx → BlobTx}
    {r : Except Stop (Bytes × Bytes)} (h : FieldsScan inner₁ typeID₁ rest r)
    (hblobs : ∀ blobs, scanBlobs blobs b = scanBlobs blobs rest)
    (hstep : ∀ m, unmarshal BlobTx.field m b = unmarshal BlobTx.field (g m) rest)
    (hg : ∀ blobs, g ⟨inner, blobs, typeID⟩ = ⟨inner₁, blobs, typeID₁⟩) :
    FieldsScan inner typeID b r := by
  refine Stop.because_imp h (fun hnone m => (hstep m).trans (hnone _)) ?_
  rintro r ⟨vs, hvs, hscan, hdecode⟩
  refine ⟨vs, hvs, fun blobs => (hblobs blobs).trans (hscan blobs), fun blobs => ?_⟩
  rw [hstep, hg, hdecode]

theorem FieldsScan.blob {n k : Nat} {r : Except Stop (Bytes × Bytes)}
    (h : FieldsScan inner typeID ((b.drop n).drop k) r) (hb : b.length < 2 ^ 63)
    (htag : consumeTag b = some (2, bytesType, n)) (hv : consumeBytes (b.drop n) = some (v, k)) :
    FieldsScan inner typeID b r := by
  have hn := consumeTag_count htag
  have hdrop : (b.drop n).length = b.length - n := length_drop
  have hlen : v.length < 2 ^ 63 := by
    obtain ⟨m, j, -, hm, rfl, -⟩ := consumeBytes_eq_some.1 hv
    rw [length_take, length_drop]
    omega
  -- the decoder adds the blob or fails with it
  have hstep : ∀ m, unmarshal BlobTx.field m b =
      match Blob.unmarshal v with
      | none => none
      | some blob => unmarshal BlobTx.field { m with blobs := m.blobs ++ [blob] }
          ((b.drop n).drop k) := by
    intro m
    have hfield : BlobTx.field m 2 bytesType (b.drop n) = _ :=
      bytesStep_of_consume (by omega) hv
    cases hblob : Blob.unmarshal v with
    | none =>
      rw [hblob] at hfield
      exact unmarshal_error htag hfield
    | some blob =>
      rw [hblob] at hfield
      exact unmarshal_value htag (by decide) hfield
  refine Stop.because_imp h (fun hnone m => ?_) ?_
  · rw [hstep]
    cases Blob.unmarshal v with
    | none => rfl
    | some blob => exact hnone _
  · rintro r ⟨vs, hvs, hscan, hdecode⟩
    refine ⟨v :: vs, forall_mem_cons.2 ⟨hlen, hvs⟩, fun blobs => ?_, fun blobs => ?_⟩
    · rw [scanBlobs_blob htag hv, scanPayloads]
      simp only [hscan]
    · rw [hstep, mapM_cons]
      cases Blob.unmarshal v with
      | none => rfl
      | some blob =>
        dsimp only
        rw [hdecode]
        cases vs.mapM Blob.unmarshal with
        | none => rfl
        | some bs => simp

theorem BlobTx.field_of_wrongType {num typ : Nat} (hnum : num = 1 ∨ num = 2 ∨ num = 3)
    (htyp : typ ≠ bytesType) (m : BlobTx) : BlobTx.field m num typ b = .error := by
  unfold BlobTx.field bytesStep
  rcases hnum with rfl | rfl | rfl
  · exact if_pos htyp
  · exact if_pos htyp
  · exact if_pos htyp

theorem BlobTx.field_unknown {num typ : Nat} (hnum : ¬(num = 1 ∨ num = 2 ∨ num = 3)) (m : BlobTx) :
    BlobTx.field m num typ b = .unknown := by
  unfold BlobTx.field
  split
  · omega
  · omega
  · omega
  · rfl

theorem fieldsScan_scanFields (hb : b.length < 2 ^ 63) :
    FieldsScan inner typeID b (scanFields inner typeID b) := by
  induction hlen : b.length using Nat.strong_induction_on generalizing b inner typeID with
  | _ len ih =>
    subst hlen
    by_cases hnil : b = []
    · subst hnil
      rw [scanFields, if_pos rfl]
      refine ⟨[], nofun, fun blobs => ?_, fun blobs => ?_⟩
      · rw [scanBlobs, if_pos rfl, scanPayloads]
      · rw [unmarshal_nil]
        simp
    rw [scanFields, if_neg hnil]
    cases htag : consumeTag b with
    | none => trivial
    | some p =>
      obtain ⟨num, typ, n⟩ := p
      have hn := consumeTag_count htag
      have hdrop : (b.drop n).length = b.length - n := length_drop
      have hrest : ∀ k, ((b.drop n).drop k).length < b.length := by
        intro k
        rw [length_drop]
        omega
      refine .ite (fun hnum => ?_) fun hnum => ?_
      · refine .ite (fun htyp => ?_) fun htyp => ?_
        · exact fun m => unmarshal_error htag (BlobTx.field_of_wrongType hnum htyp m)
        obtain rfl := not_not.1 htyp
        cases hv : consumeBytes (b.drop n) with
        | none => trivial
        | some q =>
          obtain ⟨v, k⟩ := q
          have hvalue : consumeFieldValue num bytesType (b.drop n) = some k := by
            rw [consumeFieldValue_bytes, hv]
            rfl
          rcases hnum with rfl | rfl | rfl
          · refine (ih _ (hrest k) ((hrest k).trans hb) rfl).other
              (g := fun m => { m with tx := v })
              (scanBlobs_other htag (by decide) hvalue) (fun m => ?_) fun _ => rfl
            exact unmarshal_value htag (by decide) (bytesStep_of_consume
              (f := fun v => some (BlobTx.mk v m.blobs m.typeId)) (by omega) hv)
          · exact (ih _ (hrest k) ((hrest k).trans hb) rfl).blob hb htag hv
          · refine (ih _ (hrest k) ((hrest k).trans hb) rfl).other
              (g := fun m => { m with typeId := v })
              (scanBlobs_other htag (by decide) hvalue) (fun m => ?_) fun _ => rfl
            exact unmarshal_value htag (by decide)
              (bytesStep_of_consume (f := fun v => some (BlobTx.mk m.tx m.blobs v)) (by omega) hv)
      · cases hvalue : consumeFieldValue num typ (b.drop n) with
        | none => trivial
        | some k =>
          exact (ih _ (hrest k) ((hrest k).trans hb) rfl).other (g := id)
            (scanBlobs_other htag (by omega) hvalue)
            (fun m => unmarshal_unknown hb htag hvalue (BlobTx.field_unknown hnum m)) fun _ => rfl

end Fields

theorem decodeLegacyBlobTx_of_payloads {tx inner typeID : Bytes}
    (h : BlobTx.unmarshal tx = (vs.mapM Blob.unmarshal).map fun bs => ⟨inner, [] ++ bs, typeID⟩) :
    (typeID = protoBlobTxTypeID ∧ vs ≠ [] ∧ (∀ v ∈ vs, Blob.WellFormed v) →
      decodeLegacyBlobTx tx = (inner, true)) ∧
    (¬(typeID = protoBlobTxTypeID ∧ vs ≠ [] ∧ ∀ v ∈ vs, Blob.WellFormed v) →
      decodeLegacyBlobTx tx = (tx, false)) := by
  rw [forall_wellFormed_iff]
  unfold decodeLegacyBlobTx
  rw [h]
  cases hbs : vs.mapM Blob.unmarshal with
  | none => simp
  | some bs =>
    have hnil : bs.length = 0 ↔ vs = [] := by
      rw [length_of_mapM hbs, length_eq_zero_iff]
    simp only [map_some, nil_append, hnil, some.injEq]
    constructor
    · rintro ⟨htype, hne, bs', rfl, hall⟩
      rw [if_neg (by simp [htype, hne]), if_neg (by simpa using hall)]
    · intro hnot
      split_ifs with hbad hany
      · rfl
      · rfl
      · exfalso
        rw [not_or, not_not] at hbad
        exact hnot ⟨hbad.1, hbad.2, bs, rfl, by simpa using hany⟩

theorem scanLegacyBlobTx_meets {tx : Bytes} (hlen : tx.length < 2 ^ 63) :
    Meets (Stop.Because (decodeLegacyBlobTx tx = (tx, false))) (scanLegacyBlobTx tx) fun inner =>
      decodeLegacyBlobTx tx = (inner, true) := by
  have hfields : FieldsScan [] [] tx (scanFields [] [] tx) := fieldsScan_scanFields hlen
  refine (Stop.because_imp hfields (fun hnone => ?_) fun _ => id).bind ?_
  · have hnone : BlobTx.unmarshal tx = none := hnone _
    unfold decodeLegacyBlobTx
    rw [hnone]
  rintro ⟨inner, typeID⟩ ⟨vs, hvs, hblobs, hdecode⟩
  obtain ⟨haccept, hreject⟩ := decodeLegacyBlobTx_of_payloads (hdecode [])
  refine .ite (fun htype => hreject fun h => htype h.1) fun htype => ?_
  rw [hblobs]
  refine (Stop.because_imp (scanPayloads_meets hvs 0)
    (fun hnot => hreject fun h => hnot h.2.2) fun _ => id).bind fun total ⟨htotal, hall⟩ => ?_
  refine .ite (fun hzero => hreject fun h => ?_) fun hzero => haccept ⟨not_not.1 htype, ?_, hall⟩
  · exact h.2.1 (eq_nil_of_length_eq_zero (by omega))
  · rintro rfl
    exact hzero htotal

/-- The scanner is exact: it returns what the generated decoder leads to under the legacy rules, and
does not slice out of range. A length is an `int`. -/
theorem unwrapLegacyBlobTx_exact (tx : Bytes) (hlen : tx.length < 2 ^ 63) :
    unwrapLegacyBlobTx tx = .ok (decodeLegacyBlobTx tx) := by
  have hscan := scanLegacyBlobTx_meets hlen
  unfold unwrapLegacyBlobTx
  cases h : scanLegacyBlobTx tx with
  | ok inner => rw [hscan.of_ok h]
  | error e =>
    have he := hscan.of_error h
    cases e with
    | undecided => rfl
    | rejected => exact congrArg Except.ok he.symm
    | panic => exact he.elim

/-- A transaction with the type ID and one blob, whose only field is its namespace ID. -/
def singleBlobTx : Bytes :=
  [10, 1, 7, 18, 30, 10, 28] ++ .replicate 28 0 ++ [26, 4, 66, 76, 79, 66]

theorem unwrapLegacyBlobTx_single : unwrapLegacyBlobTx singleBlobTx = .ok ([7], true) := by
  simp [unwrapLegacyBlobTx, scanLegacyBlobTx, scanFields, scanBlobs, scanLegacyBlob,
    scanLegacyBlobFrom, singleBlobTx, consumeTag, consumeVarint, consumeVarintFrom, consumeBytes,
    consumeFieldValue, consumeFieldValueD, wantType, protoBlobTxTypeID, namespaceIDSize, bind,
    Except.bind, List.replicate]

theorem unwrapLegacyBlobTx_exact_single : singleBlobTx.length < 2 ^ 63 ∧
    decodeLegacyBlobTx singleBlobTx = ([7], true) := by
  have hlen : singleBlobTx.length < 2 ^ 63 := by decide
  have hexact := unwrapLegacyBlobTx_exact singleBlobTx hlen
  rw [unwrapLegacyBlobTx_single] at hexact
  exact ⟨hlen, (Except.ok.inj hexact).symm⟩

end CelestiaCore
