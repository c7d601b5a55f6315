import CelestiaCore.Types.PartSet

/-!
# Parts announced by a peer

`consensus/propagation/have_wants.go`: a have message of a known peer to the running reactor, and
the part indexes that it hands to the routine that requests parts.
-/
namespace CelestiaCore.Propagation
open Wire

structure CombinedPartSet where
  original : PartSet
  totalMap : List Bool

structure PartMetaData where
  index : UInt32
  hash : Bytes

structure HaveParts where
  height : Int64
  round : Int32
  parts : List PartMetaData

structure Request where
  height : Int64
  round : Int32
  index : UInt32
  deriving DecidableEq, Repr

/-- What `getAllState` finds: the part hashes of the compact block, the parts that are held and
those that are requested often enough. -/
structure AllState where
  partsHashes : Option (List Bytes)
  parts : CombinedPartSet
  fullReqs : List Bool

/-- The case that `select` takes. -/
inductive Ready where
  | done
  | receivedHaves
  | default

namespace BitArray

def setIndices (ba : List Bool) (parts : List PartMetaData) : List Bool :=
  parts.foldl (fun ba part => ba.set part.index.toNat true) ba

def sub (ba o : List Bool) : List Bool :=
  ba.mapIdx fun i bit => bit && !o.getD i false

def isEmpty (ba : List Bool) : Bool := ba.all (!·)

def getTrueIndices (ba : List Bool) : List Nat :=
  (List.range ba.length).filter (ba.getD · false)

theorem length_setIndices (ba : List Bool) (parts : List PartMetaData) :
    (setIndices ba parts).length = ba.length := by
  induction parts generalizing ba with
  | nil => rfl
  | cons part parts ih => exact (ih _).trans List.length_set

theorem getD_setIndices (ba : List Bool) (parts : List PartMetaData) (i : Nat) :
    (setIndices ba parts).getD i false ↔
      ba.getD i false ∨ i < ba.length ∧ ∃ part ∈ parts, part.index.toNat = i := by
  induction parts generalizing ba with
  | nil => simp [setIndices]
  | cons part parts ih =>
    rw [setIndices, List.foldl_cons, ← setIndices, ih, List.length_set,
      List.getD_eq_getElem?_getD, List.getD_eq_getElem?_getD, List.getElem?_set]
    grind

end BitArray

open BitArray

def HaveParts.validatePartHashes (haves : HaveParts) (expected : List Bytes) : Except String Unit :=
  if expected = [] then
    .error s!"empty expected hashes for height {haves.height} round {haves.round}"
  else
    haves.parts.forM fun part =>
      match expected[part.index.toNat]? with
      | none => .error s!"non existing part hash index {part.index}"
      | some hash =>
        if part.hash ≠ hash then .error s!"invalid part hash at index {part.index}" else .ok ()

def HaveParts.bitArray (haves : HaveParts) (size : Nat) : List Bool :=
  setIndices (.replicate size false) haves.parts

/-- The requests for the indexes that `select` finds room for. -/
def offer (haves : HaveParts) (select : Nat → Ready) : List Nat → List Request
  | [] => []
  | index :: rest =>
    match select index with
    | .done => []
    | .receivedHaves => ⟨haves.height, haves.round, index.toUInt32⟩ :: offer haves select rest
    | .default => offer haves select rest

/-- `handleHaves`: what the peer has now, and the requests handed on. -/
def handleHaves (select : Nat → Ready) (bm : List Bool) (state : Option AllState)
    (haves : HaveParts) : List Bool × List Request :=
  match state with
  | none | some ⟨none, _, _⟩ | some ⟨some [], _, _⟩ => (bm, [])
  | some ⟨some partsHashes, parts, fullReqs⟩ =>
    match haves.validatePartHashes partsHashes with
    | .error _ => (bm, [])
    | .ok () =>
      let bm := setIndices bm haves.parts
      if parts.original.isComplete then (bm, [])
      else
        let hc := haves.bitArray parts.totalMap.length
        -- `Sub` makes a new array, and neither result is kept
        let _ := sub hc parts.totalMap
        if isEmpty hc then (bm, [])
        else
          let _ := sub hc fullReqs
          (bm, if isEmpty hc then [] else offer haves select (getTrueIndices hc))

/-- The channel has room for a part, and the peer is not gone before its turn. -/
def HaveParts.Taken (haves : HaveParts) (select : Nat → Ready) (part : PartMetaData) : Prop :=
  select part.index.toNat = .receivedHaves ∧
    ∀ other ∈ haves.parts, other.index < part.index → select other.index.toNat ≠ .done

variable {haves : HaveParts} {select : Nat → Ready}

theorem mem_offer {indices : List Nat} {req : Request}
    (hsorted : indices.Pairwise (· < ·)) : req ∈ offer haves select indices ↔
      ∃ i ∈ indices, (select i = .receivedHaves ∧ ∀ j ∈ indices, j < i → select j ≠ .done) ∧
        req = ⟨haves.height, haves.round, i.toUInt32⟩ := by
  induction indices with
  | nil => simp [offer]
  | cons index rest ih =>
    obtain ⟨hlt, hrest⟩ := List.pairwise_cons.1 hsorted
    rw [offer]
    cases hselect : select index with
    | done => grind
    | receivedHaves => grind
    | default => grind

theorem getTrueIndices_sorted (ba : List Bool) : (getTrueIndices ba).Pairwise (· < ·) :=
  List.pairwise_lt_range.sublist List.filter_sublist

theorem mem_getTrueIndices {size i : Nat} : i ∈ getTrueIndices (haves.bitArray size) ↔
      i < size ∧ ∃ part ∈ haves.parts, part.index.toNat = i := by
  rw [getTrueIndices, List.mem_filter, List.mem_range, HaveParts.bitArray, getD_setIndices,
    length_setIndices]
  grind

theorem getTrueIndices_of_isEmpty {ba : List Bool} (hempty : isEmpty ba) :
    getTrueIndices ba = [] := by
  rw [isEmpty, List.all_eq_true] at hempty
  refine List.filter_eq_nil_iff.2 fun i hi => ?_
  simpa [List.mem_range.1 hi] using hempty _ (List.getElem_mem (List.mem_range.1 hi))

theorem mem_offer_getTrueIndices {size : Nat}
    {req : Request} : req ∈ offer haves select (getTrueIndices (haves.bitArray size)) ↔
      ∃ part ∈ haves.parts, part.index.toNat < size ∧ haves.Taken select part ∧
        req = ⟨haves.height, haves.round, part.index⟩ := by
  rw [mem_offer (getTrueIndices_sorted _)]
  constructor
  · rintro ⟨i, hi, ⟨hselect, hbefore⟩, rfl⟩
    obtain ⟨hsize, part, hpart, rfl⟩ := mem_getTrueIndices.1 hi
    refine ⟨part, hpart, hsize, ⟨hselect, fun other hother hlt => ?_⟩, by simp⟩
    exact hbefore _ (mem_getTrueIndices.2 ⟨Nat.lt_trans hlt hsize, other, hother, rfl⟩) hlt
  · rintro ⟨part, hpart, hsize, ⟨hselect, hbefore⟩, rfl⟩
    refine ⟨_, mem_getTrueIndices.2 ⟨hsize, part, hpart, rfl⟩, ⟨hselect, fun j hj hlt => ?_⟩,
      by simp⟩
    obtain ⟨_, other, hother, rfl⟩ := mem_getTrueIndices.1 hj
    exact hbefore other hother hlt

/-- The requests handed on: the guards come first, then every announced part of the range that the
channel takes, whether or not it is held or saturated. -/
theorem mem_handleHaves {bm : List Bool} {state : Option AllState}
    {req : Request} : req ∈ (handleHaves select bm state haves).2 ↔
      ∃ st hashes, state = some st ∧ st.partsHashes = some hashes ∧
        haves.validatePartHashes hashes = .ok () ∧ st.parts.original.isComplete = false ∧
        ∃ part ∈ haves.parts, part.index.toNat < st.parts.totalMap.length ∧
          haves.Taken select part ∧ req = ⟨haves.height, haves.round, part.index⟩ := by
  unfold handleHaves
  split
  case h_1 => simp
  case h_2 => simp
  case h_3 => simp [HaveParts.validatePartHashes]
  case h_4 partsHashes parts fullReqs _ =>
    cases hvalid : haves.validatePartHashes partsHashes with
    | error => simp [hvalid]
    | ok =>
      cases hcomplete : parts.original.isComplete with
      | true => simp [hcomplete]
      | false =>
        simp only [hvalid, hcomplete, Option.some.injEq, ↓existsAndEq, true_and,
          ← mem_offer_getTrueIndices, Bool.false_eq_true, if_false]
        by_cases hempty : isEmpty (haves.bitArray parts.totalMap.length) = true
        · simp [hempty, getTrueIndices_of_isEmpty hempty, offer]
        · simp [hempty]

/-- What the request routine is given is useful exactly if the call ends at one of the guards, or
the parts that the channel takes are neither held nor saturated: nothing else keeps them out. -/
theorem handleHaves_useful_iff (select : Nat → Ready) (bm : List Bool) (state : Option AllState)
    (haves : HaveParts) :
    (∀ req ∈ (handleHaves select bm state haves).2, ∃ st, state = some st ∧
      (∃ part ∈ haves.parts, req = ⟨haves.height, haves.round, part.index⟩) ∧
      st.parts.totalMap.getD req.index.toNat false = false ∧
      st.fullReqs.getD req.index.toNat false = false) ↔
    ∀ st hashes, state = some st → st.partsHashes = some hashes →
      haves.validatePartHashes hashes = .ok () → st.parts.original.isComplete = false →
      ∀ part ∈ haves.parts, part.index.toNat < st.parts.totalMap.length →
        haves.Taken select part → st.parts.totalMap.getD part.index.toNat false = false ∧
          st.fullReqs.getD part.index.toNat false = false := by
  constructor
  · intro huseful st hashes hstate hhashes hvalid hcomplete part hpart hsize htaken
    obtain ⟨_, hst, _, hneed⟩ := huseful _
      (mem_handleHaves.2 ⟨st, hashes, hstate, hhashes, hvalid, hcomplete, part, hpart, hsize,
        htaken, rfl⟩)
    obtain rfl := Option.some.inj (hstate.symm.trans hst)
    exact hneed
  · intro hneed req hreq
    obtain ⟨st, hashes, hstate, hhashes, hvalid, hcomplete, part, hpart, hsize, htaken, rfl⟩ :=
      mem_handleHaves.1 hreq
    exact ⟨st, hstate, ⟨part, hpart, rfl⟩,
      hneed st hashes hstate hhashes hvalid hcomplete part hpart hsize htaken⟩

/-- A block of one part, whose parity part is held. -/
def parityHeld : AllState where
  partsHashes := some [[], []]
  parts := ⟨.fromHeader ⟨1, []⟩ 1, [false, true]⟩
  fullReqs := [false, false]

theorem handleHaves_held : (handleHaves (fun _ => .receivedHaves) [false, false] (some parityHeld)
    ⟨1, 0, [⟨1, []⟩]⟩).2 = [⟨1, 0, 1⟩] := by
  decide +kernel

end CelestiaCore.Propagation
