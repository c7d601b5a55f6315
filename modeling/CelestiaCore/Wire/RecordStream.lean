import CelestiaCore.Wire.Field

/-!
# Streams of records

If a record that is cut short is noticed and uses up the rest of the stream, then a stream that was
cut anywhere is read up to the last whole record. -/
namespace Wire
open List Nat

/-- What a decoder gives for the next record. -/
inductive Decoded (M : Type) where
  | eof
  | message (m : M)
  | corrupted (cause : String)
  deriving DecidableEq, Repr

section Stream
variable {M : Type}

/-- Reading until the end of the stream, over corrupted records, in a number of rounds; `none` if
they are not enough. -/
def readAll (step : Bytes → Decoded M × Bytes) : Nat → Bytes → Option (List (Decoded M))
  | 0, _ => none
  | rounds + 1, bytes =>
    match step bytes with
    | (.eof, _) => some []
    | (d, rest) => (readAll step rounds rest).map (d :: ·)

def readMessages (step : Bytes → Decoded M × Bytes) : Nat → Bytes → Option (List M)
  | 0, _ => none
  | rounds + 1, bytes =>
    match step bytes with
    | (.message m, rest) => (readMessages step rounds rest).map (m :: ·)
    | _ => some []

/-- A decoder that ends exactly at the end of the stream and otherwise goes forward. -/
structure Progresses (step : Bytes → Decoded M × Bytes) : Prop where
  eof : step [] = (.eof, [])
  forward : ∀ bytes, bytes ≠ [] → (step bytes).1 ≠ .eof ∧ (step bytes).2.length < bytes.length

/-- The records of some messages, and how the decoder takes them. -/
structure Framing (step : Bytes → Decoded M × Bytes) (record : M → Bytes) (ok : M → Prop) : Prop
    extends Progresses step where
  ne_nil : ∀ m, ok m → record m ≠ []
  whole : ∀ m rest, ok m → step (record m ++ rest) = (.message m, rest)
  torn : ∀ m cut, ok m → 0 < cut → cut < (record m).length →
    ∃ cause, step ((record m).take cut) = (.corrupted cause, [])

variable {step : Bytes → Decoded M × Bytes} {record : M → Bytes} {ok : M → Prop}
  {rounds : Nat} {bytes rest : Bytes}

theorem readAll_message {m : M} (h : step bytes = (.message m, rest)) :
    readAll step (rounds + 1) bytes = (readAll step rounds rest).map (.message m :: ·) := by
  rw [readAll, h]

theorem readAll_eof (h : step bytes = (.eof, rest)) :
    readAll step (rounds + 1) bytes = some [] := by
  rw [readAll, h]

theorem readAll_corrupted {cause : String} (h : step bytes = (.corrupted cause, rest)) :
    readAll step (rounds + 1) bytes = (readAll step rounds rest).map (.corrupted cause :: ·) := by
  rw [readAll, h]

theorem Progresses.readAll_ends (h : Progresses step) {bytes : Bytes}
    (hrounds : bytes.length < rounds) : ∃ ds, readAll step rounds bytes = some ds := by
  induction rounds generalizing bytes with
  | zero => omega
  | succ rounds ih =>
    by_cases hnil : bytes = []
    · rw [hnil, readAll_eof h.eof]
      exact ⟨[], rfl⟩
    obtain ⟨hne, hlt⟩ := h.forward bytes hnil
    have hlt' : (step bytes).2.length < rounds := by omega
    obtain ⟨ds, hds⟩ := ih hlt'
    rw [readAll]
    split
    · next heq => exact absurd (congrArg Prod.fst heq) hne
    · next heq =>
      rw [heq] at hds
      rw [hds]
      exact ⟨_, rfl⟩

def stream (record : M → Bytes) (ms : List M) : Bytes := (ms.map record).flatten

theorem stream_cons (m : M) (ms : List M) :
    stream record (m :: ms) = record m ++ stream record ms := rfl

variable {ms : List M}

theorem Framing.readAll_stream (h : Framing step record ok) (hok : ∀ m ∈ ms, ok m)
    (rest : Bytes) (rounds : Nat) : readAll step (ms.length + rounds) (stream record ms ++ rest) =
      (readAll step rounds rest).map (ms.map .message ++ ·) := by
  induction ms with
  | nil => simp [stream]
  | cons m ms ih =>
    have hstep := h.whole m (stream record ms ++ rest) (hok m mem_cons_self)
    rw [stream_cons, append_assoc, length_cons, add_right_comm, readAll_message hstep,
      ih fun m' hm' => hok m' (mem_cons_of_mem _ hm'), Option.map_map]
    rfl

theorem Framing.readMessages_stream (h : Framing step record ok) (hok : ∀ m ∈ ms, ok m)
    (rest : Bytes) (rounds : Nat) :
    readMessages step (ms.length + rounds) (stream record ms ++ rest) =
      (readMessages step rounds rest).map (ms ++ ·) := by
  induction ms with
  | nil => simp [stream]
  | cons m ms ih =>
    have hstep := h.whole m (stream record ms ++ rest) (hok m mem_cons_self)
    rw [stream_cons, append_assoc, length_cons, add_right_comm, readMessages, hstep]
    dsimp only
    rw [ih fun m' hm' => hok m' (mem_cons_of_mem _ hm'), Option.map_map]
    rfl

theorem Framing.length_le_stream (h : Framing step record ok) (hok : ∀ m ∈ ms, ok m) :
    ms.length ≤ (stream record ms).length := by
  induction ms with
  | nil => exact zero_le _
  | cons m ms ih =>
    have hpos := length_pos_iff.2 (h.ne_nil m (hok m mem_cons_self))
    have := ih fun m' hm' => hok m' (mem_cons_of_mem _ hm')
    rw [stream_cons, length_append, length_cons]
    omega

theorem take_stream (hok : ∀ m ∈ ms, ok m) {cut : Nat} (hcut : cut ≤ (stream record ms).length) :
    ∃ k ≤ ms.length, ∃ rest, (stream record ms).take cut = stream record (ms.take k) ++ rest ∧
      (∀ j, k < j → j ≤ ms.length → cut < (stream record (ms.take j)).length) ∧
      (rest = [] ∨ ∃ m c, ok m ∧ 0 < c ∧ c < (record m).length ∧ rest = (record m).take c) := by
  induction ms generalizing cut with
  | nil =>
    refine ⟨0, le_rfl, [], ?_, fun j hj hj' => ?_, .inl rfl⟩
    · simp [stream]
    · simp only [length_nil] at hj'
      omega
  | cons m ms ih =>
    have hm := hok m mem_cons_self
    rw [stream_cons] at hcut ⊢
    rw [length_append] at hcut
    by_cases hlt : cut < (record m).length
    · -- the cut is in the first record
      have htake : (record m ++ stream record ms).take cut = (record m).take cut :=
        take_append_of_le_length hlt.le
      refine ⟨0, zero_le _, (record m).take cut, by simpa [stream] using htake, ?_, ?_⟩
      · intro j hj hj'
        obtain ⟨j, rfl⟩ := Nat.exists_eq_add_of_le' hj
        rw [take_succ_cons, stream_cons, length_append]
        omega
      · by_cases hzero : cut = 0
        · rw [hzero]
          exact .inl rfl
        · exact .inr ⟨m, cut, hm, pos_of_ne_zero hzero, hlt, rfl⟩
    · have hcut' : cut - (record m).length ≤ (stream record ms).length := by omega
      obtain ⟨k, hk, rest, htake, hbound, hrest⟩ :=
        ih (fun m' hm' => hok m' (mem_cons_of_mem _ hm')) hcut'
      refine ⟨k + 1, succ_le_succ hk, rest, ?_, ?_, hrest⟩
      · rw [take_append, htake, take_of_length_le (not_lt.1 hlt), take_succ_cons,
          stream_cons, append_assoc]
      · intro j hj hj'
        obtain ⟨j, rfl⟩ := Nat.exists_eq_add_of_le' (Nat.one_le_of_lt hj)
        have := hbound j (by omega) (by simpa using hj')
        rw [take_succ_cons, stream_cons, length_append]
        omega

/-- A stream that was cut is read up to the last whole record, and what is left is noticed. -/
theorem Framing.read_torn (h : Framing step record ok)
    (hok : ∀ m ∈ ms, ok m) {cut : Nat} (hcut : cut ≤ (stream record ms).length) :
    ∃ k ≤ ms.length, (stream record (ms.take k)).length ≤ cut ∧
      (∀ j, k < j → j ≤ ms.length → cut < (stream record (ms.take j)).length) ∧
      ∃ tail, (((stream record (ms.take k)).length = cut ∧ tail = []) ∨
          (stream record (ms.take k)).length < cut ∧ ∃ cause, tail = [.corrupted cause]) ∧
        ∀ rounds > cut, readAll step rounds ((stream record ms).take cut) =
            some ((ms.take k).map .message ++ tail) ∧
          readMessages step rounds ((stream record ms).take cut) = some (ms.take k) := by
  obtain ⟨k, hk, rest, htake, hbound, hrest⟩ := take_stream hok hcut
  have hok' : ∀ m ∈ ms.take k, ok m := fun m hm => hok m (mem_of_mem_take hm)
  have hlen : cut = (stream record (ms.take k)).length + rest.length := by
    rw [← length_append, ← htake, length_take, min_eq_left hcut]
  have hrecords := h.length_le_stream hok'
  refine ⟨k, hk, by omega, hbound, ?_⟩
  rcases hrest with rfl | ⟨m, c, hm, hpos, hlt, rfl⟩
  · -- at a boundary
    refine ⟨[], .inl ⟨by simpa using hlen.symm, rfl⟩, fun rounds hrounds => ?_⟩
    obtain ⟨r, rfl⟩ : ∃ r, rounds = (ms.take k).length + (r + 1) :=
      ⟨rounds - (ms.take k).length - 1, by omega⟩
    rw [htake, h.readAll_stream hok', h.readMessages_stream hok', readAll_eof h.eof,
      readMessages, h.eof]
    simp
  · -- within a record
    obtain ⟨cause, htorn⟩ := h.torn m c hm hpos hlt
    have hc : ((record m).take c).length = c := by
      rw [length_take, min_eq_left hlt.le]
    refine ⟨[.corrupted cause], .inr ⟨by omega, cause, rfl⟩, fun rounds hrounds => ?_⟩
    obtain ⟨r, rfl⟩ : ∃ r, rounds = (ms.take k).length + (r + 2) :=
      ⟨rounds - (ms.take k).length - 2, by omega⟩
    rw [htake, h.readAll_stream hok', h.readMessages_stream hok', readAll_corrupted htorn,
      readAll_eof h.eof, readMessages, htorn]
    simp

end Stream

end Wire
