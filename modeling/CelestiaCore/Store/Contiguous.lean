import CelestiaCore.Store.BlockStore

/-!
# The blocks between the base and the height

Every block between the base and the height can be loaded after each write, as long as a prune
removes fewer than 1000 blocks, the last block of the store is not deleted and the commits that are
saved with blocks are valid.
-/
namespace CelestiaCore.BlockStore
open Wire Program Relation List Function Option

/-- Writes that leave alone the block at a height, whose hash is `hash`. -/
def Write.Spares (height : Int) (hash : Bytes) : Write → Prop
  | .blockMeta h _ => h ≠ height
  | .blockPart h _ _ => h ≠ height
  | .seenCommit h _ => h ≠ height
  | .blockHash b _ => b ≠ hash
  | .blockCommit _ _ => True
  | .extCommit _ _ => True
  | .state _ _ => True

structure SameAt (height : Int) (hash : Bytes) (db db' : DB) : Prop where
  blockMeta : db'.blockMeta height = db.blockMeta height
  blockPart : db'.blockPart height = db.blockPart height
  seenCommit : db'.seenCommit height = db.seenCommit height
  blockHash : db'.blockHash hash = db.blockHash hash

variable {w : Write} {batch : List Write}

section Frame
variable {height : Int} {hash : Bytes} {db : DB}

theorem Write.Spares.sameAt (h : w.Spares height hash) : SameAt height hash db (w.apply db) := by
  cases w with
  | blockMeta => exact ⟨update_of_ne (Ne.symm h) .., rfl, rfl, rfl⟩
  | blockPart => exact ⟨rfl, update_of_ne (Ne.symm h) .., rfl, rfl⟩
  | blockHash => exact ⟨rfl, rfl, rfl, update_of_ne (Ne.symm h) ..⟩
  | blockCommit => exact ⟨rfl, rfl, rfl, rfl⟩
  | seenCommit => exact ⟨rfl, rfl, update_of_ne (Ne.symm h) .., rfl⟩
  | extCommit => exact ⟨rfl, rfl, rfl, rfl⟩
  | state => exact ⟨rfl, rfl, rfl, rfl⟩

theorem SameAt.trans {db' db'' : DB} (h : SameAt height hash db db')
    (h' : SameAt height hash db' db'') : SameAt height hash db db'' where
  blockMeta := h'.blockMeta.trans h.blockMeta
  blockPart := h'.blockPart.trans h.blockPart
  seenCommit := h'.seenCommit.trans h.seenCommit
  blockHash := h'.blockHash.trans h.blockHash

theorem sameAt_applyBatch (h : ∀ w ∈ batch, w.Spares height hash) :
    SameAt height hash db (applyBatch batch db) := by
  induction batch generalizing db with
  | nil => exact ⟨rfl, rfl, rfl, rfl⟩
  | cons w batch ih =>
    exact (h w mem_cons_self).sameAt.trans (ih fun w' hw' => h w' (mem_cons_of_mem _ hw'))

theorem applyBatch_append (batch batch' : List Write) (db : DB) :
    applyBatch (batch ++ batch') db = applyBatch batch' (applyBatch batch db) := by
  induction batch generalizing db with
  | nil => rfl
  | cons w batch ih => exact ih (w.apply db)

end Frame

section Parts
variable {height : Int} {db : DB}

theorem mem_partWrites {i : ℕ} {parts : List Bytes}
    (h : w ∈ partWrites height i parts) : ∃ j part, w = .blockPart height j (some part) := by
  induction parts generalizing i with
  | nil => exact absurd h not_mem_nil
  | cons part parts ih =>
    rcases mem_cons.1 h with rfl | h
    · exact ⟨i, part, rfl⟩
    · exact ih h

theorem blockPart_partWrites_of_lt {i j : ℕ} (parts : List Bytes) (h : j < i) :
    (applyBatch (partWrites height i parts) db).blockPart height j = db.blockPart height j := by
  induction parts generalizing i db with
  | nil => rfl
  | cons part parts ih =>
    rw [partWrites, applyBatch, ih (Nat.lt_succ_of_lt h)]
    simp only [Write.apply, update_self]
    exact update_of_ne h.ne ..

theorem loadParts_partWrites (db : DB) (height : Int) (i : ℕ) (parts : List Bytes) :
    loadParts (applyBatch (partWrites height i parts) db) height parts.length i = some parts := by
  induction parts generalizing i db with
  | nil => rfl
  | cons part parts ih =>
    rw [partWrites, applyBatch, length_cons, loadParts,
      blockPart_partWrites_of_lt parts (Nat.lt_succ_self i), ih]
    simp [Write.apply]

theorem loadParts_congr {db' : DB} (h : db'.blockPart height = db.blockPart height) (n i : ℕ) :
    loadParts db' height n i = loadParts db height n i := by
  induction n generalizing i with
  | zero => rfl
  | succ n ih => rw [loadParts, loadParts, h, ih]

end Parts

section Stored
variable (hash : Header → Bytes) (unmarshal : Bytes → Option Block)

/-- A block is stored at a height with all that belongs to it. -/
structure Stored (db : DB) (height : Int) (block : Block) (header : PartSetHeader) : Prop where
  height_eq : block.height = height
  blockMeta : db.blockMeta height = some ⟨⟨hash block.header, header⟩, block.header⟩
  decodes : blockMetaFromTrustedProto ⟨⟨hash block.header, header⟩, block.header⟩ = .ok ()
  parts : ∃ parts, loadParts db height header.total.toNat 0 = some parts ∧
    unmarshal parts.flatten = some block
  blockHash : db.blockHash (hash block.header) = some height
  seenCommit : ∃ c, db.seenCommit height = some c ∧ commitFromProto c = .ok ()

/-- The invariant: the store is empty, or all blocks from the base to the height are stored. -/
def Inv (db : DB) : Prop :=
  (db.base = 0 ∧ db.height = 0) ∨ (0 < db.base ∧ db.base ≤ db.height ∧
    ∀ h, db.base ≤ h → h ≤ db.height → ∃ block header, Stored hash unmarshal db h block header)

variable {hash unmarshal} {db db' : DB} {h : Int} {block : Block} {header : PartSetHeader}

theorem Stored.of_sameAt (hs : Stored hash unmarshal db h block header)
    (hsame : SameAt h (hash block.header) db db') : Stored hash unmarshal db' h block header where
  height_eq := hs.height_eq
  blockMeta := hsame.blockMeta.trans hs.blockMeta
  decodes := hs.decodes
  parts := by
    rw [loadParts_congr hsame.blockPart]
    exact hs.parts
  blockHash := hsame.blockHash.trans hs.blockHash
  seenCommit := hsame.seenCommit ▸ hs.seenCommit

theorem Stored.hash_ne {h' : Int} {block' : Block} {header' : PartSetHeader}
    (hs : Stored hash unmarshal db h block header)
    (hs' : Stored hash unmarshal db h' block' header') (hne : h ≠ h') :
    hash block.header ≠ hash block'.header := by
  intro heq
  have := hs.blockHash.symm.trans (heq ▸ hs'.blockHash)
  exact hne (some.inj this)

theorem Inv.narrow (hinv : Inv hash unmarshal db) {base height : Int} (hbase : db.base ≤ base)
    (hle : base ≤ height) (hheight : height ≤ db.height) (hne : db.base ≠ 0)
    (hspares : ∀ h block header, base ≤ h → h ≤ height → Stored hash unmarshal db h block header →
      ∀ w ∈ batch, w.Spares h (hash block.header)) :
    Inv hash unmarshal (applyBatch (batch ++ [.state base height]) db) := by
  obtain ⟨hzero, -⟩ | ⟨hpos, -, hstored⟩ := hinv
  · exact absurd hzero hne
  have hstate : ∀ db : DB, applyBatch [.state base height] db =
      { db with base := base, height := height } := fun _ => rfl
  rw [applyBatch_append, hstate]
  refine .inr ⟨hpos.trans_le hbase, hle, fun h hlo hhi => ?_⟩
  obtain ⟨block, header, hs⟩ := hstored h (hbase.trans hlo) (hhi.trans hheight)
  have hsame : SameAt h (hash block.header) db (applyBatch batch db) :=
    sameAt_applyBatch (hspares h block header hlo hhi hs)
  exact ⟨block, header, hs.of_sameAt
    ⟨hsame.blockMeta, hsame.blockPart, hsame.seenCommit, hsame.blockHash⟩⟩

/-- What a caller of `SaveBlock` gives: a block of positive height with its parts, which both
decode, whose hash is not that of another block in the store. -/
structure Saves (db : DB) (hash : Header → Bytes) (unmarshal : Bytes → Option Block)
    (block : Block) (parts : BlockParts) : Prop where
  height_pos : 0 < block.height
  parts_of : unmarshal parts.bytes.flatten = some block
  decodes : blockMetaFromTrustedProto ⟨⟨hash block.header, parts.header⟩, block.header⟩ = .ok ()
  fresh : ∀ h m, db.blockMeta h = some m → hash m.header = hash block.header →
    m.header = block.header

variable {parts : BlockParts} {seenCommit : Commit}

theorem Saves.hash_ne (hsaves : Saves db hash unmarshal block parts) {h : Int}
    {block' : Block} {header : PartSetHeader} (hs : Stored hash unmarshal db h block' header)
    (hne : block.height ≠ h) : hash block.header ≠ hash block'.header := by
  intro heq
  have hheader : block'.header = block.header := hsaves.fresh h _ hs.blockMeta heq.symm
  have hheight : block'.height = block.height := by rw [Block.height, hheader, Block.height]
  exact hne (hheight.symm.trans hs.height_eq)

variable {b : Bytes}

theorem spares_partWrites (hne : block.height ≠ h)
    (hw : w ∈ partWrites block.height 0 parts.bytes) : w.Spares h b := by
  obtain ⟨j, part, rfl⟩ := mem_partWrites hw
  exact hne

theorem spares_metaWrites (hne : block.height ≠ h) (hb : hash block.header ≠ b)
    (hw : w ∈ metaWrites hash block parts seenCommit) : w.Spares h b := by
  simp only [metaWrites, mem_cons, not_mem_nil, or_false] at hw
  rcases hw with rfl | rfl | rfl | rfl
  · exact hne
  · exact hb
  · trivial
  · exact hne

variable {ext : List Write}

theorem stored_saved (hseen : commitFromProto seenCommit = .ok ()) (base : Int)
    (hsaves : Saves db hash unmarshal block parts) (hcomplete : parts.isComplete = true)
    (hext : ext = [] ∨ ∃ c, ext = [.extCommit block.height c]) :
    Stored hash unmarshal (applyBatch (metaWrites hash block parts seenCommit ++ ext ++
      [.state base block.height]) (applyBatch (partWrites block.height 0 parts.bytes) db))
      block.height block parts.header := by
  have hlength : parts.bytes.length = parts.header.total.toNat := of_decide_eq_true hcomplete
  have hload := loadParts_partWrites db block.height 0 parts.bytes
  rw [hlength] at hload
  generalize applyBatch (partWrites block.height 0 parts.bytes) db = db₁ at hload
  rcases hext with rfl | ⟨c, rfl⟩
  all_goals
    constructor
    case height_eq => rfl
    case blockMeta => simp [metaWrites, applyBatch, Write.apply]
    case decodes => exact hsaves.decodes
    case parts => exact ⟨parts.bytes, (loadParts_congr (by rfl) _ _).trans hload, hsaves.parts_of⟩
    case blockHash => simp [metaWrites, applyBatch, Write.apply]
    case seenCommit => exact ⟨seenCommit, by simp [metaWrites, applyBatch, Write.apply], hseen⟩

/-- Where a block may be saved: in an empty store, or right above the height. -/
def Appends (db : DB) (block : Block) : Prop := db.base = 0 ∨ block.height = db.height + 1

theorem Inv.not_in_range (hinv : Inv hash unmarshal db) (happends : Appends db block)
    (hhi : h ≤ db.height) (hpos : 0 < block.height) : block.height ≠ h := by
  rcases hinv with ⟨hbase, hheight⟩ | ⟨hbase, -, -⟩
  · omega
  · rcases happends with hzero | happends
    · omega
    · omega

theorem Inv.writePart (hinv : Inv hash unmarshal db) (happends : Appends db block)
    (hpos : 0 < block.height) (i : ℕ) (v : Option Bytes) :
    Inv hash unmarshal ((Write.blockPart block.height i v).apply db) := by
  have hrange := fun h (hhi : h ≤ db.height) => hinv.not_in_range happends hhi hpos
  rcases hinv with hempty | ⟨hbase, hle, hstored⟩
  · exact .inl hempty
  refine .inr ⟨hbase, hle, fun h hlo hhi => ?_⟩
  obtain ⟨block', header, hs⟩ := hstored h hlo hhi
  have hspares : (Write.blockPart block.height i v).Spares h (hash block'.header) :=
    hrange h hhi
  exact ⟨block', header, hs.of_sameAt hspares.sameAt⟩

theorem safe_writeEach (J : DB → Prop) (writes : List Write)
    (hwrite : ∀ w ∈ writes, ∀ db, J db → J (w.apply db)) (hdb : J db) :
    Durable.Safe J (writeEach writes) db fun _ t => t = applyBatch writes db ∧ J t := by
  induction writes generalizing db with
  | nil => exact .pure ⟨rfl, hdb⟩
  | cons w writes ih =>
    have hw := hwrite w mem_cons_self db hdb
    refine .bind (.write (Q := fun _ t => t = w.apply db) hw rfl) ?_
    rintro - t rfl
    exact ih (fun w' hw' => hwrite w' (mem_cons_of_mem _ hw')) hw

/-- The database once a block is saved, with what else is in its batch. -/
def savedDB (hash : Header → Bytes) (block : Block) (parts : BlockParts) (seenCommit : Commit)
    (ext : List Write) (db : DB) : DB :=
  applyBatch (metaWrites hash block parts seenCommit ++ ext ++
      [.state (if db.base = 0 then block.height else db.base) block.height])
    (applyBatch (partWrites block.height 0 parts.bytes) db)

theorem Inv.saved (hinv : Inv hash unmarshal db) (hseen : commitFromProto seenCommit = .ok ())
    (hsaves : Saves db hash unmarshal block parts) (happends : Appends db block)
    (hcomplete : parts.isComplete = true)
    (hext : ext = [] ∨ ∃ c, ext = [.extCommit block.height c]) :
    Inv hash unmarshal (savedDB hash block parts seenCommit ext db) := by
  have hpos := hsaves.height_pos
  have hnew := stored_saved hseen (if db.base = 0 then block.height else db.base) hsaves
    hcomplete hext
  have hbase : (savedDB hash block parts seenCommit ext db).base =
      if db.base = 0 then block.height else db.base := by
    rw [savedDB, applyBatch_append]
    rfl
  have hheight : (savedDB hash block parts seenCommit ext db).height = block.height := by
    rw [savedDB, applyBatch_append]
    rfl
  refine .inr ?_
  rw [hbase, hheight]
  rcases hinv with ⟨hzero, -⟩ | ⟨hbpos, hle, hstored⟩
  · rw [if_pos hzero]
    refine ⟨hpos, le_rfl, fun h hlo hhi => ?_⟩
    obtain rfl := le_antisymm hhi hlo
    exact ⟨block, parts.header, hnew⟩
  · rw [if_neg hbpos.ne']
    have happend := happends.resolve_left hbpos.ne'
    refine ⟨hbpos, by omega, fun h hlo hhi => ?_⟩
    by_cases hh : h = block.height
    · subst hh
      exact ⟨block, parts.header, hnew⟩
    obtain ⟨block', header, hs⟩ := hstored h hlo (by omega)
    have hne : block.height ≠ h := Ne.symm hh
    refine ⟨block', header, hs.of_sameAt ?_⟩
    refine SameAt.trans (sameAt_applyBatch fun w hw => spares_partWrites hne hw)
      (sameAt_applyBatch fun w hw => ?_)
    rcases mem_append.1 hw with hw | hw
    · rcases mem_append.1 hw with hw | hw
      · exact spares_metaWrites hne (hsaves.hash_ne hs hne) hw
      · rcases hext with rfl | ⟨c, rfl⟩
        · exact absurd hw not_mem_nil
        · obtain rfl := mem_singleton.1 hw
          trivial
    · obtain rfl := mem_singleton.1 hw
      trivial

/-- `SaveBlock` from the batch on, and `SaveBlockWithExtendedCommit` with the extended commit: `J`
holds while the parts of a large block are written one by one. -/
theorem safe_save {I J : DB → Prop} (hdb : J db) (hJI : ∀ t, J t → I t)
    (hparts : (¬(0 < db.base ∧ block.height ≠ db.height + 1)) →
      ∀ i part t, J t → J ((Write.blockPart block.height i (some part)).apply t))
    (hsaved : (¬(0 < db.base ∧ block.height ≠ db.height + 1)) → parts.isComplete = true →
      I (savedDB hash block parts seenCommit ext db)) :
    Durable.Safe I (do
        let batch ← saveBlockToBatch hash block parts seenCommit
        finishSave block (batch ++ ext)) db
      fun _ t => t = savedDB hash block parts seenCommit ext db := by
  refine .bind (Q := fun batch t => I (savedDB hash block parts seenCommit ext db) ∧
    t.base = db.base ∧ applyBatch batch t = applyBatch (metaWrites hash block parts seenCommit)
      (applyBatch (partWrites block.height 0 parts.bytes) db)) ?_ ?_
  · refine .read (.ite (fun _ => .fail) fun hcontiguous => ?_)
    refine .ite (fun _ => .fail) fun hcomplete => ?_
    refine .ite (fun _ => .fail) fun _ => ?_
    have hsaved := hsaved hcontiguous (Bool.not_eq_false _ ▸ hcomplete)
    refine .ite (fun _ => .pure ⟨hsaved, rfl, applyBatch_append ..⟩) fun _ => ?_
    have heach := safe_writeEach (fun t => J t ∧ t.base = db.base)
      (partWrites block.height 0 parts.bytes) (fun w hw t ht => by
        obtain ⟨i, part, rfl⟩ := mem_partWrites hw
        exact ⟨hparts hcontiguous i part t ht.1, ht.2⟩) ⟨hdb, rfl⟩
    refine .bind (Q := fun _ t => t = applyBatch (partWrites block.height 0 parts.bytes) db ∧
      t.base = db.base) ⟨fun t ht => hJI t (heach.trail t ht).1, fun a ha => ?_⟩ ?_
    · obtain ⟨heq, -, hbase⟩ := heach.returns a ha
      exact ⟨heq, hbase⟩
    · rintro - t ⟨rfl, hbase⟩
      exact .pure ⟨hsaved, hbase, rfl⟩
  · rintro batch t ⟨hsaved, hbase, hbatch⟩
    have heq : applyBatch (batch ++ ext ++
        [.state (if t.base = 0 then block.height else t.base) block.height]) t =
        savedDB hash block parts seenCommit ext db := by
      simp only [savedDB, applyBatch_append, hbatch, hbase]
    exact .read (.write (heq ▸ hsaved) heq)

theorem Inv.safe_save (hinv : Inv hash unmarshal db) (hseen : commitFromProto seenCommit = .ok ())
    (hsaves : Saves db hash unmarshal block parts)
    (hext : ext = [] ∨ ∃ c, ext = [.extCommit block.height c]) :
    Durable.Safe (Inv hash unmarshal) (do
        let batch ← saveBlockToBatch hash block parts seenCommit
        finishSave block (batch ++ ext)) db
      fun _ t => t = savedDB hash block parts seenCommit ext db := by
  have happends : ¬(0 < db.base ∧ block.height ≠ db.height + 1) → Appends db block := by
    intro hcontiguous
    rcases hinv with ⟨hzero, -⟩ | ⟨hbpos, -, -⟩
    · exact .inl hzero
    · by_contra hnot
      exact hcontiguous ⟨hbpos, fun heq => hnot (.inr heq)⟩
  refine BlockStore.safe_save (J := fun t => Inv hash unmarshal t ∧ t.base = db.base ∧
    t.height = db.height) ⟨hinv, rfl, rfl⟩ (fun _ => And.left) (fun hcontiguous i part t ht => ?_)
    fun hcontiguous hcomplete => hinv.saved hseen hsaves (happends hcontiguous) hcomplete hext
  have happends' : Appends t block := by
    rw [Appends, ht.2.1, ht.2.2]
    exact happends hcontiguous
  exact ⟨ht.1.writePart happends' hsaves.height_pos i (some part), ht.2⟩

theorem spares_partDeletes {k : Int} {n : ℕ} (hne : k ≠ h)
    (hw : w ∈ partDeletes k n) : w.Spares h b := by
  obtain ⟨i, -, rfl⟩ := mem_map.1 hw
  exact hne

theorem spares_pruneWrites {m : BlockMeta} {k ep : Int} (hne : k ≠ h)
    (hb : m.blockID.hash ≠ b) (hw : w ∈ pruneWrites m k ep) : w.Spares h b := by
  simp only [pruneWrites, mem_append, mem_singleton] at hw
  rcases hw with (((hw | rfl) | hw) | rfl) | hw
  · split at hw
    · obtain rfl := mem_singleton.1 hw
      exact hne
    · exact absurd hw not_mem_nil
  · exact hb
  · split at hw
    · simp only [mem_cons, not_mem_nil, or_false] at hw
      rcases hw with rfl | rfl
      · trivial
      · trivial
    · exact absurd hw not_mem_nil
  · exact hne
  · exact spares_partDeletes hne hw

def SparesFrom (hash : Header → Bytes) (unmarshal : Bytes → Option Block) (db : DB) (retain : Int)
    (batch : List Write) : Prop :=
  ∀ h block header, retain ≤ h → h ≤ db.height → Stored hash unmarshal db h block header →
    ∀ w ∈ batch, w.Spares h (hash block.header)

/-- A prune of fewer than 1000 blocks collects all its deletes in one batch, and none of them is
about a block that is retained. -/
theorem safe_pruneLoop (state : PruneState) {retain : Int}
    (hretain : retain ≤ db.height) (hstored : ∀ h, db.base ≤ h → h ≤ db.height → ∃ block header,
      Stored hash unmarshal db h block header) (n : ℕ)
    (h ep : Int) (pruned : ℕ) (batch : List Write) (hlo : db.base ≤ h) (hhi : h + n = retain)
    (hfew : pruned + n < 1000) (hbatch : SparesFrom hash unmarshal db retain batch) :
    Durable.Safe (fun _ => False) (pruneLoop unmarshal state retain n h ep pruned batch) db
      fun out t => t = db ∧ SparesFrom hash unmarshal db retain out.1 := by
  induction n generalizing h ep pruned batch with
  | zero => exact .pure ⟨rfl, hbatch⟩
  | succ n ih =>
    push_cast at hhi
    refine .read (.bind (Q := fun _ t => t = db) ?_ ?_)
    · cases loadBlock unmarshal db h with
      | ok block => exact .pure rfl
      | error err => exact .fail
    rintro - t rfl
    obtain ⟨block, header, hs⟩ := hstored h hlo (by omega)
    rw [hs.blockMeta]
    refine .ite (fun hflush => ?_) fun _ => ?_
    · omega
    · refine ih _ _ _ _ (by omega) (by omega) (by omega) fun k block' header' hk hk' hs' w hw => ?_
      rcases mem_append.1 hw with hw | hw
      · exact hbatch k block' header' hk hk' hs' w hw
      · have hne : h ≠ k := by omega
        exact spares_pruneWrites hne (hs.hash_ne hs' hne) hw

theorem Inv.safe_pruneBlocks (hinv : Inv hash unmarshal db) (retain : Int) (state : PruneState)
    (hfew : retain - db.base < 1000) :
    Durable.Safe (Inv hash unmarshal) (pruneBlocks unmarshal retain state) db fun _ _ => True := by
  refine .read (.ite (fun _ => .fail) fun hpos => ?_)
  refine .ite (fun _ => .fail) fun hbeyond => ?_
  refine .ite (fun _ => .fail) fun hbelow => ?_
  have hinv' := hinv
  obtain ⟨-, hzero⟩ | ⟨hbpos, hle, hstored⟩ := hinv'
  · omega
  have hloop := safe_pruneLoop state (not_lt.1 hbeyond) hstored (retain - db.base).toNat db.base
    retain 0 [] le_rfl (by omega) (by omega) (nofun)
  refine .bind (Q := fun out t => t = db ∧ SparesFrom hash unmarshal db retain out.1)
    ⟨fun t ht => (hloop.trail t ht).elim, hloop.returns⟩ ?_
  rintro ⟨batch, pruned, ep⟩ t ⟨rfl, hspares⟩
  refine .bind (Q := fun _ _ => True) (.write ?_ trivial) fun _ _ _ => .pure trivial
  exact hinv.narrow (not_lt.1 hbelow) (not_lt.1 hbeyond) le_rfl hbpos.ne' hspares

theorem Inv.safe_deleteLatestBlock (hinv : Inv hash unmarshal db) (hmore : db.base < db.height) :
    Durable.Safe (Inv hash unmarshal) deleteLatestBlock db fun _ _ => True := by
  refine .read (.write ?_ trivial)
  have hinv' := hinv
  obtain ⟨hzero, hzero'⟩ | ⟨hbpos, hle, hstored⟩ := hinv'
  · omega
  obtain ⟨block, header, hs⟩ := hstored db.height hle le_rfl
  refine hinv.narrow le_rfl (by omega) (by omega) hbpos.ne'
    fun h block' header' hlo hhi hs' w hw => ?_
  have hne : db.height ≠ h := by omega
  simp only [deleteWrites, hs.blockMeta, mem_append, mem_cons, not_mem_nil, or_false] at hw
  rcases hw with (rfl | hw) | rfl | rfl | rfl
  · exact hs.hash_ne hs' hne
  · exact spares_partDeletes hne hw
  · trivial
  · exact hne
  · exact hne

inductive Call where
  | saveBlock (block : Block) (parts : BlockParts) (seenCommit : Commit)
  | saveBlockWithExtendedCommit (block : Block) (parts : BlockParts)
      (seenExtendedCommit : ExtendedCommit)
  | pruneBlocks (height : Int) (state : PruneState)
  | deleteLatestBlock

def Call.trail (hash : Header → Bytes) (unmarshal : Bytes → Option Block) (db : DB) :
    Call → List DB
  | .saveBlock block parts seenCommit => (BlockStore.saveBlock hash block parts seenCommit db).trail
  | .saveBlockWithExtendedCommit block parts ec =>
    (BlockStore.saveBlockWithExtendedCommit hash block parts ec db).trail
  | .pruneBlocks height state => (BlockStore.pruneBlocks unmarshal height state db).trail
  | .deleteLatestBlock => (BlockStore.deleteLatestBlock db).trail

def Call.Allowed (hash : Header → Bytes) (unmarshal : Bytes → Option Block) (db : DB) :
    Call → Prop
  | .saveBlock block parts _ => Saves db hash unmarshal block parts
  | .saveBlockWithExtendedCommit block parts _ => Saves db hash unmarshal block parts
  | .pruneBlocks _ _ => True
  | .deleteLatestBlock => True

/-- The condition on a call: the seen commit decodes, fewer than 1000 blocks are pruned, and a block
is left. -/
def Call.Mild (db : DB) : Call → Prop
  | .saveBlock _ _ seenCommit => commitFromProto seenCommit = .ok ()
  | .saveBlockWithExtendedCommit _ _ ec => commitFromProto ec.toCommit = .ok ()
  | .pruneBlocks height _ => height - db.base < 1000
  | .deleteLatestBlock => db.base < db.height

/-- From what is durable after one write to what is durable after a write of a further call. -/
def Writes (hash : Header → Bytes) (unmarshal : Bytes → Option Block) (guard : DB → Call → Prop)
    (db db' : DB) : Prop :=
  ∃ call : Call, call.Allowed hash unmarshal db ∧ guard db call ∧ db' ∈ call.trail hash unmarshal db

theorem Inv.writes (hinv : Inv hash unmarshal db)
    (h : Writes hash unmarshal (fun db call => call.Mild db) db db') : Inv hash unmarshal db' := by
  obtain ⟨call, hallowed, hmild, hmem⟩ := h
  cases call with
  | saveBlock block parts seenCommit =>
    have hsafe := hinv.safe_save hmild hallowed (.inl rfl)
    simp only [append_nil] at hsafe
    exact hsafe.trail _ hmem
  | saveBlockWithExtendedCommit block parts ec =>
    simp only [Call.trail, saveBlockWithExtendedCommit] at hmem
    cases hext : ec.ensureExtensions true with
    | error err =>
      rw [hext] at hmem
      exact absurd hmem not_mem_nil
    | ok _ =>
      rw [hext] at hmem
      exact (hinv.safe_save hmild hallowed (.inr ⟨_, rfl⟩)).trail _ hmem
  | pruneBlocks height state => exact (hinv.safe_pruneBlocks height state hmild).trail _ hmem
  | deleteLatestBlock => exact (hinv.safe_deleteLatestBlock hmild).trail _ hmem

theorem Stored.loadBlockMeta_eq (hs : Stored hash unmarshal db h block header) :
    loadBlockMeta db h = .ok (some ⟨⟨hash block.header, header⟩, block.header⟩) := by
  simp only [loadBlockMeta, hs.blockMeta, decoded, hs.decodes]

theorem Stored.loadBlock_eq (hs : Stored hash unmarshal db h block header) :
    loadBlock unmarshal db h = .ok (some block) := by
  obtain ⟨parts, hload, hunmarshal⟩ := hs.parts
  simp only [loadBlock, hs.loadBlockMeta_eq, hload, hunmarshal]

section Runs

def sampleHeader (height : Int64) : Header :=
  ⟨11, 1, [99], height, 0, default, [], [], [], [], [], [], [], [], List.replicate 20 0⟩

def sampleBlock (height : Int64) : Block := ⟨sampleHeader height, [], ⟨height - 1, 0, default, []⟩⟩

def sampleUnmarshal (bytes : Bytes) : Option Block := some (sampleBlock (.ofNat bytes.length))

def sampleHash (header : Header) : Bytes :=
  [.ofNat (header.height.toInt.toNat / 256), .ofNat header.height.toInt.toNat] ++
    List.replicate 30 0

def sampleCommit : Commit :=
  ⟨5, 0, ⟨List.replicate 32 1, ⟨1, List.replicate 32 1⟩⟩, [.absent]⟩

theorem decodes_sample {height : Int64} (hneg : ¬height < 0) (hzero : height ≠ 0) :
    blockMetaFromTrustedProto
      ⟨⟨sampleHash (sampleHeader height), ⟨1, []⟩⟩, sampleHeader height⟩ = .ok () := by
  simp only [blockMetaFromTrustedProto, blockIDFromProto, Header.validateBasic, sampleHeader,
    reject, hneg, hzero, if_false]
  rfl

end Runs

section Flush

theorem pruneLoop_stored (hs : Stored hash unmarshal db h block header) (state : PruneState)
    (retain : Int) (n : ℕ) (ep : Int) (pruned : ℕ) (batch : List Write) :
    ∃ ep', pruneLoop unmarshal state retain (n + 1) h ep pruned batch db =
      (if (pruned + 1) % 1000 = 0 then (do
          saveStateAndWriteDB (batch ++ pruneWrites
            ⟨⟨hash block.header, header⟩, block.header⟩ h ep') h db.height
          pruneLoop unmarshal state retain n (h + 1) ep' (pruned + 1) [])
        else pruneLoop unmarshal state retain n (h + 1) ep' (pruned + 1) (batch ++ pruneWrites
          ⟨⟨hash block.header, header⟩, block.header⟩ h ep')) db := by
  refine ⟨evidencePointAt state retain ep h ⟨⟨hash block.header, header⟩, block.header⟩, ?_⟩
  rw [pruneLoop]
  simp only [Bind.bind, Durable.bind, Durable.read, Durable.lift, Durable.pure, Durable.final,
    hs.loadBlock_eq, hs.blockMeta, getLastD_nil, nil_append]

/-- With 1000 blocks to prune, the deletes of the last of them are flushed together with its height
as the base. -/
theorem pruneLoop_flushes (state : PruneState)
    (retain : Int) (hstored : ∀ h, db.base ≤ h → h ≤ db.height → ∃ block header,
      Stored hash unmarshal db h block header) {last : Int}
    (hlast : Stored hash unmarshal db last block header) (hle : last ≤ db.height) (n k : ℕ)
    (h ep : Int) (pruned : ℕ) (batch : List Write) (hlo : db.base ≤ h) (hhi : h + n = last)
    (hn : pruned + (n + 1) = 1000) (hbatch : ∀ w ∈ batch, w.Spares last (hash block.header)) :
    ∃ batch' ep', (∀ w ∈ batch', w.Spares last (hash block.header)) ∧
      applyBatch (batch' ++ pruneWrites ⟨⟨hash block.header, header⟩, block.header⟩ last ep' ++
          [.state last db.height]) db ∈
        (pruneLoop unmarshal state retain (n + 1 + k) h ep pruned batch db).trail := by
  induction n generalizing h ep pruned batch with
  | zero =>
    rw [Nat.cast_zero, add_zero] at hhi
    subst hhi
    obtain ⟨ep', heq⟩ := pruneLoop_stored hlast state retain (0 + k) ep pruned batch
    refine ⟨batch, ep', hbatch, ?_⟩
    rw [Nat.add_right_comm, heq, if_pos (by omega)]
    exact Durable.mem_trail_bind (mem_singleton.2 rfl)
  | succ n ih =>
    push_cast at hhi
    obtain ⟨block', header', hs⟩ := hstored h hlo (by omega)
    obtain ⟨ep', heq⟩ := pruneLoop_stored hs state retain (n + 1 + k) ep pruned batch
    rw [Nat.add_right_comm (n + 1) 1 k, heq, if_neg (by omega)]
    refine ih (h + 1) ep' (pruned + 1) _ (by omega) (by omega) (by omega) fun w hw => ?_
    rcases mem_append.1 hw with hw | hw
    · exact hbatch w hw
    · have hne : h ≠ last := by omega
      exact spares_pruneWrites hne (hs.hash_ne hlast hne) hw

theorem blockPart_partDeletes {n i : ℕ} (hi : i < n) :
    (applyBatch (partDeletes h n) db).blockPart h i = none := by
  have hdeletes : ∀ (l : List ℕ) (db : DB), db.blockPart h i = none ∨ i ∈ l →
      (applyBatch (l.map fun j => .blockPart h j none) db).blockPart h i = none := by
    intro l
    induction l with
    | nil => exact fun _ hnone => hnone.resolve_right not_mem_nil
    | cons j l ih =>
      refine fun db hnone => ih _ ?_
      by_cases hji : i = j
      · simp [Write.apply, hji]
      · simpa [Write.apply, hji] using hnone
  exact hdeletes _ db (.inr (mem_range.2 hi))

theorem keeps_partDeletes {n : ℕ} : (applyBatch (partDeletes h n) db).blockMeta = db.blockMeta ∧
    (applyBatch (partDeletes h n) db).blockCommit = db.blockCommit := by
  rw [partDeletes]
  induction range n generalizing db with
  | nil => exact ⟨rfl, rfl⟩
  | cons j l ih => exact ih

theorem loadBlock_of_missing {m : BlockMeta} (hdecodes : blockMetaFromTrustedProto m = .ok ())
    (hmeta : db.blockMeta h = none ∨ db.blockMeta h = some m) (hpart : db.blockPart h 0 = none)
    (htotal : 0 < m.blockID.partSetHeader.total.toNat) : loadBlock unmarshal db h = .ok none := by
  obtain ⟨n, hn⟩ := Nat.exists_eq_succ_of_ne_zero htotal.ne'
  rcases hmeta with hnone | hsome
  · simp only [loadBlock, loadBlockMeta, hnone, decoded]
  · simp only [loadBlock, loadBlockMeta, hsome, decoded, hdecodes, hn, loadParts, hpart, bind,
      bind_none]

theorem loadBlock_pruned (hs : Stored hash unmarshal db h block header)
    (hparts : 0 < header.total.toNat) (ep base height : Int)
    (hbatch : ∀ w ∈ batch, w.Spares h (hash block.header)) :
    loadBlock unmarshal (applyBatch (batch ++ pruneWrites
      ⟨⟨hash block.header, header⟩, block.header⟩ h ep ++ [.state base height]) db) h =
      .ok none := by
  rw [applyBatch_append, applyBatch_append]
  have hmeta := (hs.of_sameAt (sameAt_applyBatch hbatch)).blockMeta
  generalize applyBatch batch db = db₁ at hmeta
  set m : BlockMeta := ⟨⟨hash block.header, header⟩, block.header⟩
  have hpart : (applyBatch (pruneWrites m h ep) db₁).blockPart h 0 = none := by
    rw [pruneWrites, applyBatch_append]
    exact blockPart_partDeletes hparts
  have hcases : (applyBatch (pruneWrites m h ep) db₁).blockMeta h = none ∨
      (applyBatch (pruneWrites m h ep) db₁).blockMeta h = some m := by
    rw [pruneWrites, applyBatch_append, keeps_partDeletes.1]
    by_cases hep : h < ep
    · exact .inl (by simp [hep, applyBatch, Write.apply])
    · exact .inr (by simp [hep, applyBatch, Write.apply, hmeta])
  exact loadBlock_of_missing hs.decodes hcases hpart hparts

/-- A prune of 1000 blocks or more passes through a durable state whose base is a block that it has
deleted. -/
theorem Inv.flush_loses_base (hinv : Inv hash unmarshal db) (retain : Int) (state : PruneState)
    (hmany : db.base + 1000 ≤ retain) (hretain : retain ≤ db.height)
    (hparts : ∀ h m, db.blockMeta h = some m → 0 < m.blockID.partSetHeader.total.toNat) :
    ∃ t ∈ (pruneBlocks unmarshal retain state db).trail, t.base = db.base + 999 ∧
      t.height = db.height ∧ loadBlock unmarshal t t.base = .ok none := by
  obtain ⟨hbase, hzero⟩ | ⟨hbpos, hle, hstored⟩ := hinv
  · omega
  obtain ⟨block, header, hlast⟩ := hstored (db.base + 999) (by omega) (by omega)
  have hrounds : (retain - db.base).toNat = 999 + 1 + ((retain - db.base).toNat - 1000) := by omega
  obtain ⟨batch, ep, hbatch, hmem⟩ := pruneLoop_flushes state retain hstored hlast (by omega) 999
    ((retain - db.base).toNat - 1000) db.base retain 0 [] le_rfl (by push_cast; rfl) (by omega)
    nofun
  rw [← hrounds] at hmem
  obtain ⟨f, hchecks⟩ : ∃ f : List Write × ℕ × Int → Durable DB (ℕ × Int),
      pruneBlocks unmarshal retain state db =
        (pruneLoop unmarshal state retain (retain - db.base).toNat db.base retain 0 [] >>= f)
          db := by
    rw [pruneBlocks, Durable.read_bind_apply, if_neg (show ¬retain ≤ 0 by omega),
      if_neg (not_lt.2 hretain), if_neg (show ¬retain < db.base by omega)]
    exact ⟨_, rfl⟩
  have hloaded := loadBlock_pruned hlast (hparts _ _ hlast.blockMeta) ep (db.base + 999) db.height
    hbatch
  have hstate : ∀ (b : List Write) (base height : Int),
      (applyBatch (b ++ [.state base height]) db).base = base ∧
        (applyBatch (b ++ [.state base height]) db).height = height := by
    intro b base height
    rw [applyBatch_append]
    exact ⟨rfl, rfl⟩
  refine ⟨_, hchecks ▸ Durable.mem_trail_bind hmem, (hstate ..).1, (hstate ..).2, ?_⟩
  rw [(hstate ..).1]
  exact hloaded

/-- Blocks 1 to 1001. -/
def sampleChain : DB :=
  { DB.empty with
    base := 1
    height := 1001
    blockMeta h := some ⟨⟨sampleHash (sampleHeader (.ofInt h)), ⟨1, []⟩⟩, sampleHeader (.ofInt h)⟩
    blockPart h _ := some (List.replicate h.toNat 0)
    blockHash b := some ((b.getD 0 0).toNat * 256 + (b.getD 1 0).toNat)
    seenCommit _ := some sampleCommit }

theorem flush_loses_base_sample :
    ∃ t ∈ (pruneBlocks sampleUnmarshal 1001 ⟨0, 0, 0, 0⟩ sampleChain).trail, t.base = 1000 ∧
      t.height = 1001 ∧ loadBlock sampleUnmarshal t t.base = .ok none := by
  have hinv : Inv sampleHash sampleUnmarshal sampleChain := by
    refine .inr ⟨by decide, by decide, fun h hlo hhi => ⟨sampleBlock (.ofInt h), ⟨1, []⟩, ?_⟩⟩
    have hlo : 1 ≤ h := hlo
    have hhi : h ≤ 1001 := hhi
    lift h to ℕ using by omega
    have hn : (Int64.ofInt h).toInt = h := Int64.toInt_ofInt_of_le (by omega) (by omega)
    refine ⟨hn, rfl, ?_, ⟨_, rfl, ?_⟩, ?_, _, rfl, by decide +kernel⟩
    · refine decodes_sample ?_ ?_
      · rw [Int64.lt_iff_toInt_lt, hn, Int64.toInt_zero]
        omega
      · rw [Ne, ← Int64.toInt_inj, hn, Int64.toInt_zero]
        omega
    · simp [sampleUnmarshal]
      rfl
    · simp [sampleChain, sampleHash, sampleBlock, sampleHeader, hn]
      omega
  refine hinv.flush_loses_base 1001 _ (by decide) (by decide) fun h m hm => ?_
  cases hm
  exact Nat.one_pos

end Flush

end Stored

end CelestiaCore.BlockStore
