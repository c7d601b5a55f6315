import Mathlib

/-!
# The search for the end of a height

`SearchForEndHeight` and `OnStart` of `consensus/wal.go`, `catchupReplay` of `consensus/replay.go`.
The log is a group of files of which the last one, the head, is written to. -/
namespace CelestiaCore.WAL
open Relation List

/-- What the decoder gives for a record: the marker `EndHeightMessage`, another message, or a data
corruption error. -/
inductive Item (M : Type) where
  | endHeight (height : Int)
  | message (m : M)
  | corrupted
  deriving DecidableEq, Repr

/-- The rotated files, oldest first, and the head. -/
structure Group (M : Type) where
  files : List (List (Item M))
  head : List (Item M)
  deriving DecidableEq, Repr

section Search
variable {M : Type}

/-- What a reader gives that is opened at each of the files, from the newest file to the oldest: the
records of that file and of all the later ones. -/
def readers : List (List (Item M)) → List (List (Item M))
  | [] => []
  | file :: rest => readers rest ++ [(file :: rest).flatten]

/-- How the inner loop of `SearchForEndHeight` ends. -/
inductive Scan (M : Type) where
  | found (rest : List (Item M))
  | eof (lastHeightFound : Int)
  | failed
  deriving DecidableEq, Repr

def scan (ignoreDataCorruptionErrors : Bool) (height : Int) : Int → List (Item M) → Scan M
  | lastHeightFound, [] => .eof lastHeightFound
  | lastHeightFound, .corrupted :: rest =>
    if ignoreDataCorruptionErrors then
      scan ignoreDataCorruptionErrors height lastHeightFound rest
    else .failed
  | _, .endHeight h :: rest =>
    if h = height then .found rest else scan ignoreDataCorruptionErrors height h rest
  | lastHeightFound, .message _ :: rest =>
    scan ignoreDataCorruptionErrors height lastHeightFound rest

/-- The outer loop, over the readers; `lastHeightFound` goes on from file to file. -/
def searchFrom (ignoreDataCorruptionErrors : Bool) (height lastHeightFound : Int) :
    List (List (Item M)) → Except String (Option (List (Item M)))
  | [] => .ok none
  | stream :: older =>
    match scan ignoreDataCorruptionErrors height lastHeightFound stream with
    | .found rest => .ok (some rest)
    | .failed => .error "DataCorruptionError"
    | .eof lastHeightFound =>
      if 0 < lastHeightFound ∧ lastHeightFound < height then .ok none
      else searchFrom ignoreDataCorruptionErrors height lastHeightFound older

/-- `SearchForEndHeight`: what is left to read after the marker, if there is one. -/
def searchForEndHeight (group : Group M) (height : Int) (ignoreDataCorruptionErrors : Bool) :
    Except String (Option (List (Item M))) :=
  searchFrom ignoreDataCorruptionErrors height (-1) (readers (group.files ++ [group.head]))

/-- The loop of `catchupReplay`: the messages that are reprocessed. -/
def replayMessages : List (Item M) → Except String (List M)
  | [] => .ok []
  | .corrupted :: _ => .error "DataCorruptionError"
  | .endHeight _ :: rest => replayMessages rest
  | .message m :: rest => (replayMessages rest).map (m :: ·)

def catchupReplay (group : Group M) (initialHeight csHeight : Int) : Except String (List M) := do
  match ← searchForEndHeight group csHeight true with
  | some _ => .error s!"wal should not contain #ENDHEIGHT {csHeight}"
  | none =>
    if csHeight < initialHeight then
      .error s!"cannot replay height {csHeight}, below initial height {initialHeight}"
    else
      let endHeight := if csHeight = initialHeight then 0 else csHeight - 1
      match ← searchForEndHeight group endHeight true with
      | none => .error (s!"cannot replay height {csHeight}. " ++
          s!"WAL does not contain #ENDHEIGHT for {endHeight}")
      | some rest => replayMessages rest

def Group.all (group : Group M) : List (Item M) := (group.files ++ [group.head]).flatten

def Group.write (group : Group M) (item : Item M) : Group M :=
  { group with head := group.head ++ [item] }

def Group.rotateFile (group : Group M) : Group M := ⟨group.files ++ [group.head], []⟩

def Group.onStart (group : Group M) : Group M :=
  if group.head = [] then group.write (.endHeight 0) else group

end Search

section Found
variable {M : Type} {height last : Int} {stream pre post : List (Item M)}

def Quiet (stream : List (Item M)) : Prop := ∀ h, Item.endHeight h ∈ stream → h ≤ 0

theorem scan_found (hpre : Item.endHeight height ∉ pre) :
    scan true height last (pre ++ .endHeight height :: post) = .found post := by
  induction pre generalizing last with
  | nil => simp [scan]
  | cons item pre ih =>
    obtain ⟨hitem, hrest⟩ := not_or.1 (mem_cons.not.1 hpre)
    cases item with
    | endHeight h =>
      have hne : h ≠ height := fun heq => hitem (heq ▸ rfl)
      rw [cons_append, scan, if_neg hne, ih hrest]
    | message => rw [cons_append, scan, ih hrest]
    | corrupted => rw [cons_append, scan, if_pos rfl, ih hrest]

theorem scan_eof (last : Int) (h : Item.endHeight height ∉ stream) :
    ∃ last', scan true height last stream = .eof last' ∧
      (last' = last ∨ Item.endHeight last' ∈ stream) := by
  induction stream generalizing last with
  | nil => exact ⟨last, rfl, .inl rfl⟩
  | cons item stream ih =>
    obtain ⟨hitem, hrest⟩ := not_or.1 (mem_cons.not.1 h)
    cases item with
    | endHeight h' =>
      have hne : h' ≠ height := fun heq => hitem (heq ▸ rfl)
      obtain ⟨last', hscan, hlast⟩ := ih h' hrest
      refine ⟨last', by rw [scan, if_neg hne, hscan], .inr ?_⟩
      rcases hlast with rfl | hmem
      · exact mem_cons_self
      · exact mem_cons_of_mem _ hmem
    | message =>
      obtain ⟨last', hscan, hlast⟩ := ih last hrest
      exact ⟨last', by rw [scan, hscan], hlast.imp_right (mem_cons_of_mem _)⟩
    | corrupted =>
      obtain ⟨last', hscan, hlast⟩ := ih last hrest
      exact ⟨last', by rw [scan, if_pos rfl, hscan], hlast.imp_right (mem_cons_of_mem _)⟩

theorem searchFrom_passes (fs older : List (List (Item M))) (hquiet : Quiet fs.flatten)
    (h : Item.endHeight height ∉ fs.flatten) (hlast : last ≤ 0) :
    ∃ last' ≤ 0, searchFrom true height last (readers fs ++ older) =
      searchFrom true height last' older := by
  induction fs generalizing older with
  | nil => exact ⟨last, hlast, rfl⟩
  | cons file rest ih =>
    have hsub : ∀ item ∈ rest.flatten, item ∈ (file :: rest).flatten := by
      intro item hitem
      rw [flatten_cons]
      exact mem_append_right _ hitem
    obtain ⟨last₁, hle₁, hsearch⟩ := ih ([(file :: rest).flatten] ++ older)
      (fun h' hmem => hquiet h' (hsub _ hmem)) (fun hmem => h (hsub _ hmem))
    obtain ⟨last₂, hscan, hlast₂⟩ := scan_eof last₁ h
    have hle₂ : last₂ ≤ 0 := by
      rcases hlast₂ with rfl | hmem
      · exact hle₁
      · exact hquiet _ hmem
    refine ⟨last₂, hle₂, ?_⟩
    rw [readers, append_assoc, hsearch, singleton_append, searchFrom, hscan]
    exact if_neg fun hearly => absurd hearly.1 (not_lt.2 hle₂)

/-- The search ends behind one of the markers, if behind each of them every marker has height 0. -/
theorem searchFrom_finds {Q : List (Item M) → Prop} (last : Int) (fs older : List (List (Item M)))
    (hmem : Item.endHeight height ∈ fs.flatten)
    (hafter : ∀ pre post, fs.flatten = pre ++ .endHeight height :: post → Quiet post ∧ Q post)
    (hlast : last ≤ 0) :
    ∃ post, searchFrom true height last (readers fs ++ older) = .ok (some post) ∧ Q post := by
  induction fs generalizing older with
  | nil => simp at hmem
  | cons file rest ih =>
    rw [readers, append_assoc]
    by_cases hrest : Item.endHeight height ∈ rest.flatten
    · refine ih _ hrest fun pre post heq => hafter (file ++ pre) post ?_
      rw [flatten_cons, heq, append_assoc]
    -- the marker is in this file, so the later files are passed
    have hquiet : Quiet rest.flatten := by
      rw [flatten_cons] at hmem
      obtain ⟨a, b, rfl⟩ := append_of_mem ((mem_append.1 hmem).resolve_right hrest)
      have hpost := (hafter a (b ++ rest.flatten) (by simp)).1
      exact fun h' hmem' => hpost h' (mem_append_right _ hmem')
    obtain ⟨last', hle, hsearch⟩ := searchFrom_passes rest ([(file :: rest).flatten] ++ older)
      hquiet hrest hlast
    obtain ⟨pre, post, heq, hpre⟩ := eq_append_cons_of_mem hmem
    refine ⟨post, ?_, (hafter pre post heq).2⟩
    rw [hsearch, singleton_append, searchFrom, heq, scan_found hpre]

theorem searchFrom_none (streams : List (List (Item M)))
    (h : ∀ stream ∈ streams, Item.endHeight height ∉ stream) :
    searchFrom true height last streams = .ok none := by
  induction streams generalizing last with
  | nil => rfl
  | cons stream older ih =>
    obtain ⟨last', hscan, -⟩ := scan_eof last (h stream mem_cons_self)
    rw [searchFrom, hscan]
    dsimp only
    split
    · rfl
    · exact ih fun s hs => h s (mem_cons_of_mem _ hs)

theorem mem_flatten_of_mem_readers {fs : List (List (Item M))} {item : Item M}
    (hstream : stream ∈ readers fs) (hitem : item ∈ stream) : item ∈ fs.flatten := by
  induction fs with
  | nil => simp [readers] at hstream
  | cons file rest ih =>
    rw [readers, mem_append, mem_singleton] at hstream
    rcases hstream with hstream | rfl
    · rw [flatten_cons]
      exact mem_append_right _ (ih hstream)
    · exact hitem

def messages : List (Item M) → List M
  | [] => []
  | .message m :: rest => m :: messages rest
  | _ :: rest => messages rest

theorem messages_append (a b : List (Item M)) : messages (a ++ b) = messages a ++ messages b := by
  induction a with
  | nil => rfl
  | cons item a ih => cases item <;> simp [messages, ih]

theorem replayMessages_eq (h : Item.corrupted ∉ stream) :
    replayMessages stream = .ok (messages stream) := by
  induction stream with
  | nil => rfl
  | cons item stream ih =>
    obtain ⟨hitem, hrest⟩ := not_or.1 (mem_cons.not.1 h)
    cases item with
    | endHeight => exact ih hrest
    | message => rw [replayMessages, ih hrest]; rfl
    | corrupted => exact absurd rfl hitem

end Found

/-- The log of a node that began at the initial height. `since` are the messages written since the
last height ended. -/
structure Log (M : Type) where
  group : Group M
  height : Int
  since : List M

namespace Log
variable {M : Type} {initialHeight : Int}

def first (M : Type) (initialHeight : Int) : Log M :=
  ⟨Group.onStart ⟨[], []⟩, initialHeight, []⟩

/-- What happens to the log: a message is written, the height is finalized, the head is rotated, or
the log is started again where `guard` lets it. -/
inductive Step (guard : Log M → Prop) : Log M → Log M → Prop where
  | write (l : Log M) (m : M) :
    Step guard l { l with group := l.group.write (.message m), since := l.since ++ [m] }
  | finalize (l : Log M) : Step guard l ⟨l.group.write (.endHeight l.height), l.height + 1, []⟩
  | rotate (l : Log M) : Step guard l { l with group := l.group.rotateFile }
  | restart (l : Log M) (h : guard l) : Step guard l { l with group := l.group.onStart }

/-- The condition on a restart: the head is not empty, or the initial height has ended, or no
message has been written yet. -/
def Clean (initialHeight : Int) (l : Log M) : Prop :=
  l.group.head ≠ [] ∨ l.height ≠ initialHeight ∨ l.since = []

def endHeight (initialHeight : Int) (l : Log M) : Int :=
  if l.height = initialHeight then 0 else l.height - 1

structure Inv (initialHeight : Int) (l : Log M) : Prop where
  initial_le : initialHeight ≤ l.height
  intact : Item.corrupted ∉ l.group.all
  below : ∀ h, Item.endHeight h ∈ l.group.all → h < l.height
  marked : Item.endHeight (l.endHeight initialHeight) ∈ l.group.all
  after : ∀ pre post, l.group.all = pre ++ .endHeight (l.endHeight initialHeight) :: post →
    Quiet post ∧ messages post = l.since

theorem all_write (group : Group M) (item : Item M) :
    (group.write item).all = group.all ++ [item] := by
  simp [Group.write, Group.all]

theorem all_rotateFile (group : Group M) : group.rotateFile.all = group.all := by
  simp [Group.rotateFile, Group.all]

theorem split_concat {all pre post : List (Item M)} {a b : Item M}
    (h : all ++ [b] = pre ++ a :: post) :
    (post = [] ∧ a = b ∧ all = pre) ∨ ∃ post', post = post' ++ [b] ∧ all = pre ++ a :: post' := by
  rcases eq_nil_or_concat post with rfl | ⟨post', c, rfl⟩
  · obtain ⟨rfl, hab⟩ := append_inj' h rfl
    exact .inl ⟨rfl, (List.cons.inj hab).1.symm, rfl⟩
  · rw [concat_eq_append, ← cons_append, ← append_assoc] at h
    obtain ⟨rfl, hbc⟩ := append_inj' h rfl
    obtain rfl := (List.cons.inj hbc).1
    exact .inr ⟨post', concat_eq_append, rfl⟩

theorem Inv.first (h : 0 < initialHeight) : Inv initialHeight (first M initialHeight) := by
  have hall : (Log.first M initialHeight).group.all = [.endHeight 0] := rfl
  have hend : (Log.first M initialHeight).endHeight initialHeight = 0 := if_pos rfl
  constructor
  case initial_le => exact le_rfl
  case intact => simp [hall]
  case below =>
    intro h' hmem
    rw [hall, mem_singleton, Item.endHeight.injEq] at hmem
    exact hmem ▸ h
  case marked => simp [hall, hend]
  case after =>
    intro pre post heq
    rw [hall, hend, ← nil_append [Item.endHeight 0]] at heq
    rcases split_concat heq with ⟨rfl, -, -⟩ | ⟨post', -, hnil⟩
    · exact ⟨nofun, rfl⟩
    · simp at hnil

variable {l : Log M}

/-- A record that is not the marker searched for, and no marker of a positive height, is added. -/
theorem Inv.added (hinv : Inv initialHeight l) {item : Item M}
    (hintact : item ≠ .corrupted) (hquiet : ∀ h, item = .endHeight h → h ≤ 0)
    (hpos : 0 < initialHeight)
    (hend : item = .endHeight (l.endHeight initialHeight) → l.since = []) :
    Inv initialHeight { l with
      group := l.group.write item
      since := l.since ++ messages [item] } := by
  have hheight : 0 < l.height := hpos.trans_le hinv.initial_le
  constructor
  case initial_le => exact hinv.initial_le
  case intact =>
    rw [all_write, mem_append, mem_singleton]
    rintro (hmem | heq)
    · exact hinv.intact hmem
    · exact hintact heq.symm
  case below =>
    intro h hmem
    rw [all_write, mem_append, mem_singleton] at hmem
    rcases hmem with hmem | heq
    · exact hinv.below h hmem
    · exact (hquiet h heq.symm).trans_lt hheight
  case marked =>
    rw [all_write]
    exact mem_append_left _ hinv.marked
  case after =>
    intro pre post heq
    rw [all_write] at heq
    rcases split_concat heq with ⟨rfl, hitem, -⟩ | ⟨post', rfl, hall⟩
    · refine ⟨nofun, ?_⟩
      rw [hend hitem.symm, ← hitem]
      rfl
    · obtain ⟨hquiet', hmessages⟩ := hinv.after pre post' hall
      refine ⟨fun h hmem => ?_, by rw [messages_append, hmessages]⟩
      rcases mem_append.1 hmem with hmem | hmem
      · exact hquiet' h hmem
      · exact hquiet h (mem_singleton.1 hmem).symm

theorem Inv.finalized (hinv : Inv initialHeight l) :
    Inv initialHeight ⟨l.group.write (.endHeight l.height), l.height + 1, []⟩ := by
  have hle := hinv.initial_le
  have hend : endHeight initialHeight (M := M)
      ⟨l.group.write (.endHeight l.height), l.height + 1, []⟩ = l.height := by
    rw [endHeight, if_neg (by dsimp only; omega)]
    exact add_sub_cancel_right _ _
  constructor
  case initial_le => exact hle.trans (Int.le_of_lt (Int.lt_succ _))
  case intact =>
    rw [all_write, mem_append, mem_singleton]
    rintro (hmem | heq)
    · exact hinv.intact hmem
    · simp at heq
  case below =>
    intro h hmem
    rw [all_write, mem_append, mem_singleton] at hmem
    rcases hmem with hmem | heq
    · exact (hinv.below h hmem).trans (Int.lt_succ _)
    · rw [Item.endHeight.injEq] at heq
      exact heq ▸ Int.lt_succ _
  case marked =>
    rw [hend, all_write]
    exact mem_append_right _ (mem_singleton.2 rfl)
  case after =>
    intro pre post heq
    rw [hend, all_write] at heq
    rcases split_concat heq with ⟨rfl, -, -⟩ | ⟨post', rfl, hall⟩
    · exact ⟨nofun, rfl⟩
    -- the marker of the height in progress was not written before
    have hmem : Item.endHeight l.height ∈ l.group.all := by
      rw [hall]
      exact mem_append_right _ mem_cons_self
    exact absurd (hinv.below _ hmem) (lt_irrefl _)

theorem Inv.rotated (hinv : Inv initialHeight l) :
    Inv initialHeight { l with group := l.group.rotateFile } := by
  constructor
  case initial_le => exact hinv.initial_le
  case intact => exact all_rotateFile l.group ▸ hinv.intact
  case below => exact all_rotateFile l.group ▸ hinv.below
  case marked => exact all_rotateFile l.group ▸ hinv.marked
  case after => exact all_rotateFile l.group ▸ hinv.after

theorem Inv.step (hpos : 0 < initialHeight) {l l' : Log M} (hinv : Inv initialHeight l)
    (h : Step (Clean initialHeight) l l') : Inv initialHeight l' := by
  cases h with
  | write => exact hinv.added (by simp) (by simp) hpos (by simp)
  | finalize => exact hinv.finalized
  | rotate => exact hinv.rotated
  | restart hclean =>
    by_cases hhead : l.group.head = []
    · have hsince : l.since = l.since ++ messages [Item.endHeight 0 (M := M)] :=
        (append_nil _).symm
      rw [Group.onStart, if_pos hhead, hsince]
      refine hinv.added (by simp) (by simp) hpos fun hzero => ?_
      rcases hclean with hne | hne | hnil
      · exact absurd hhead hne
      · have := hinv.initial_le
        rw [endHeight, if_neg hne, Item.endHeight.injEq] at hzero
        omega
      · exact hnil
    · rw [Group.onStart, if_neg hhead]
      exact hinv

theorem Inv.searchForEndHeight (hinv : Inv initialHeight l) :
    ∃ rest, searchForEndHeight l.group (l.endHeight initialHeight) true = .ok (some rest) ∧
      Item.corrupted ∉ rest ∧ messages rest = l.since := by
  have h := searchFrom_finds (Q := fun post => Item.corrupted ∉ post ∧ messages post = l.since)
    (-1) (l.group.files ++ [l.group.head]) [] hinv.marked (fun pre post heq => by
      obtain ⟨hquiet, hmessages⟩ := hinv.after pre post heq
      refine ⟨hquiet, fun hmem => hinv.intact ?_, hmessages⟩
      rw [Group.all, heq]
      exact mem_append_right _ (mem_cons_of_mem _ hmem)) (by decide)
  rwa [append_nil] at h

theorem Inv.catchupReplay (hinv : Inv initialHeight l) :
    catchupReplay l.group initialHeight l.height = .ok l.since := by
  have hnone : WAL.searchForEndHeight l.group l.height true = .ok none :=
    searchFrom_none _ fun stream hstream hmem =>
      lt_irrefl _ (hinv.below _ (mem_flatten_of_mem_readers hstream hmem))
  obtain ⟨rest, hfound, hintact, hmessages⟩ := hinv.searchForEndHeight
  rw [endHeight] at hfound
  simp only [WAL.catchupReplay, hnone, bind, Except.bind, if_neg (not_lt.2 hinv.initial_le), hfound]
  rw [replayMessages_eq hintact, hmessages]

/-- In every run that meets the condition, a marker of the previous height is found, and what is
replayed are the messages written since that height ended. -/
theorem replay_sees_all (initialHeight : Int) (hpos : 0 < initialHeight) (l : Log M)
    (h : ReflTransGen (Step (Clean initialHeight)) (first M initialHeight) l) :
    (∃ rest, WAL.searchForEndHeight l.group
        (if l.height = initialHeight then 0 else l.height - 1) true = .ok (some rest) ∧
      messages rest = l.since) ∧
    WAL.catchupReplay l.group initialHeight l.height = .ok l.since := by
  have hinv : Inv initialHeight l := by
    induction h with
    | refl => exact Inv.first hpos
    | tail _ hstep ih => exact ih.step hpos hstep
  constructor
  · obtain ⟨rest, hfound, -, hmessages⟩ := hinv.searchForEndHeight
    exact ⟨rest, hfound, hmessages⟩
  · exact hinv.catchupReplay

/-- A vote is written, the head is rotated, another vote is written and the node restarts. -/
theorem replay_sees_all_rotated :
    WAL.catchupReplay (M := ℕ) ⟨[[.endHeight 0, .message 1]], [.message 2]⟩ 1 1 = .ok [1, 2] := by
  have h0 : ReflTransGen (Step (Clean 1)) (first ℕ 1) _ := .single (.write _ 1)
  have h1 := h0.tail (.rotate _)
  have h2 := h1.tail (.write _ 2)
  have h3 := h2.tail (.restart _ (.inl (by decide)))
  exact (replay_sees_all 1 (by decide) _ h3).2

/-- The node votes at its initial height, the head is rotated and the node restarts: the marker of
height 0 in the new head is found first, and the vote is not replayed. -/
theorem replay_misses_vote :
    ∃ l : Log ℕ, ReflTransGen (Step fun _ => True) (first ℕ 1) l ∧ l.height = 1 ∧ l.since = [7] ∧
      WAL.searchForEndHeight l.group 0 true = .ok (some []) ∧
      WAL.catchupReplay l.group 1 1 = .ok [] := by
  have h0 : ReflTransGen (Step fun _ => True) (first ℕ 1) _ := .single (.write _ 7)
  have h1 := h0.tail (.rotate _)
  have h2 := h1.tail (.restart _ trivial)
  refine ⟨_, h2, rfl, rfl, ?_, ?_⟩
  · decide +kernel
  · decide +kernel

end Log

end CelestiaCore.WAL
