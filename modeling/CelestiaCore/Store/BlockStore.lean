import CelestiaCore.Program.Durable
import CelestiaCore.Types.LightBlock

/-!
# The block store

`store/store.go`. A batch is written at once together with the base and the height of the store;
large blocks write their parts one by one before it. -/
namespace CelestiaCore.BlockStore
open Wire Program
open Function (update)
open Durable (write read fail lift)

structure Block where
  header : Header
  txs : List Bytes
  lastCommit : Commit
  deriving DecidableEq, Repr

structure BlockMeta where
  blockID : BlockID
  header : Header
  deriving DecidableEq, Repr

/-- A part set: its header and the bytes of the parts that it has, whose proofs were checked when
they were added. -/
structure BlockParts where
  header : PartSetHeader
  parts : List (Option Bytes)
  deriving DecidableEq, Repr

/-- The parts in order; in a complete part set none is missing. -/
def BlockParts.bytes (ps : BlockParts) : List Bytes := ps.parts.filterMap id

def BlockParts.isComplete (ps : BlockParts) : Bool := ps.bytes.length = ps.header.total.toNat

/-- The database, with `BlockStoreState`. -/
structure DB where
  base : Int
  height : Int
  blockMeta : Int → Option BlockMeta
  blockPart : Int → Nat → Option Bytes
  blockHash : Bytes → Option Int
  blockCommit : Int → Option Commit
  seenCommit : Int → Option Commit
  extCommit : Int → Option ExtendedCommit

def DB.empty : DB :=
  ⟨0, 0, fun _ => none, fun _ _ => none, fun _ => none, fun _ => none, fun _ => none, fun _ => none⟩

/-- `Set` and `Delete` under the keys of the store. -/
inductive Write where
  | blockMeta (height : Int) (value : Option BlockMeta)
  | blockPart (height : Int) (index : Nat) (value : Option Bytes)
  | blockHash (hash : Bytes) (value : Option Int)
  | blockCommit (height : Int) (value : Option Commit)
  | seenCommit (height : Int) (value : Option Commit)
  | extCommit (height : Int) (value : Option ExtendedCommit)
  | state (base height : Int)

def Write.apply : Write → DB → DB
  | .blockMeta h v, db => { db with blockMeta := update db.blockMeta h v }
  | .blockPart h i v, db =>
    { db with blockPart := update db.blockPart h (update (db.blockPart h) i v) }
  | .blockHash b v, db => { db with blockHash := update db.blockHash b v }
  | .blockCommit h v, db => { db with blockCommit := update db.blockCommit h v }
  | .seenCommit h v, db => { db with seenCommit := update db.seenCommit h v }
  | .extCommit h v, db => { db with extCommit := update db.extCommit h v }
  | .state base height, db => { db with base := base, height := height }

def applyBatch : List Write → DB → DB
  | [], db => db
  | w :: batch, db => applyBatch batch (w.apply db)

section Load

def blockMetaFromTrustedProto (blockMeta : BlockMeta) : Except String Unit := do
  blockIDFromProto blockMeta.blockID
  blockIDFromProto blockMeta.header.lastBlockID
  blockMeta.header.validateBasic

def commitFromProto (commit : Commit) : Except String Unit := do
  reject (maxVotesCount < commit.signatures.length)
    s!"commit has too many signatures: {commit.signatures.length}, max: {maxVotesCount}"
  blockIDFromProto commit.blockID
  commit.signatures.forM (·.validateBasic)
  commit.validateBasic

/-- What is under a key. A load panics if it is there and fails the checks. -/
def decoded {α : Type} (fromProto : α → Except String Unit) (what : String) :
    Option α → Except String (Option α)
  | none => .ok none
  | some v =>
    match fromProto v with
    | .error err => .error s!"{what}: {err}"
    | .ok () => .ok (some v)

def loadBlockMeta (db : DB) (height : Int) : Except String (Option BlockMeta) :=
  decoded blockMetaFromTrustedProto "error from proto blockMeta" (db.blockMeta height)

variable (unmarshal : Bytes → Option Block)

/-- The loop of `LoadBlock` over `n` parts from an index on. -/
def loadParts (db : DB) (height : Int) : Nat → Nat → Option (List Bytes)
  | 0, _ => some []
  | n + 1, i => do
    let part ← db.blockPart height i
    let rest ← loadParts db height n (i + 1)
    some (part :: rest)

/-- `LoadBlock`, which panics on bytes that are no block. -/
def loadBlock (db : DB) (height : Int) : Except String (Option Block) :=
  match loadBlockMeta db height with
  | .error err => .error err
  | .ok none => .ok none
  | .ok (some blockMeta) =>
    match loadParts db height blockMeta.blockID.partSetHeader.total.toNat 0 with
    | none => .ok none
    | some parts =>
      match unmarshal parts.flatten with
      | none => .error "Error reading block"
      | some block => .ok (some block)

end Load

def maxBlockPartsToBatch : Nat := 600

def writeEach : List Write → Durable DB Unit
  | [] => pure ()
  | w :: writes => do
    write w.apply
    writeEach writes

/-- `saveBlockPart` for the parts from an index on. -/
def partWrites (height : Int) : Nat → List Bytes → List Write
  | _, [] => []
  | i, part :: parts => .blockPart height i (some part) :: partWrites height (i + 1) parts

/-- `saveStateAndWriteDB`, with the new base and height. -/
def saveStateAndWriteDB (batch : List Write) (base height : Int) : Durable DB Unit :=
  write (applyBatch (batch ++ [.state base height]))

def Block.height (block : Block) : Int := block.header.height.toInt

/-- What `saveBlockToBatch` puts in the batch after the parts. -/
def metaWrites (hash : Header → Bytes) (block : Block) (parts : BlockParts) (seenCommit : Commit) :
    List Write :=
  [.blockMeta block.height (some ⟨⟨hash block.header, parts.header⟩, block.header⟩),
    .blockHash (hash block.header) (some block.height),
    .blockCommit (block.height - 1) (some block.lastCommit),
    .seenCommit block.height (some seenCommit)]

/-- `saveBlockToBatch`: the batch, after the parts of a large block were written. -/
def saveBlockToBatch (hash : Header → Bytes) (block : Block) (parts : BlockParts)
    (seenCommit : Commit) : Durable DB (List Write) := do
  let db ← read
  if 0 < db.base ∧ block.height ≠ db.height + 1 then
    fail (s!"BlockStore can only save contiguous blocks. Wanted {db.height + 1}, " ++
      s!"got {block.height}")
  else if parts.isComplete = false then
    fail "BlockStore can only save complete block part sets"
  else if block.header.height ≠ seenCommit.height then
    fail (s!"BlockStore cannot save seen commit of a different height " ++
      s!"(block: {block.header.height}, commit: {seenCommit.height})")
  else if parts.bytes.length ≤ maxBlockPartsToBatch then
    pure (partWrites block.height 0 parts.bytes ++ metaWrites hash block parts seenCommit)
  else do
    writeEach (partWrites block.height 0 parts.bytes)
    pure (metaWrites hash block parts seenCommit)

/-- The end of `SaveBlock`: the new height, and a base if there was none. -/
def finishSave (block : Block) (batch : List Write) : Durable DB Unit := do
  let db ← read
  saveStateAndWriteDB batch (if db.base = 0 then block.height else db.base) block.height

def saveBlock (hash : Header → Bytes) (block : Block) (parts : BlockParts) (seenCommit : Commit) :
    Durable DB Unit := do
  let batch ← saveBlockToBatch hash block parts seenCommit
  finishSave block batch

def saveBlockWithExtendedCommit (hash : Header → Bytes) (block : Block) (parts : BlockParts)
    (seenExtendedCommit : ExtendedCommit) : Durable DB Unit := do
  match seenExtendedCommit.ensureExtensions true with
  | .error err => fail s!"problems saving block with extensions: {err}"
  | .ok () => do
    let batch ← saveBlockToBatch hash block parts seenExtendedCommit.toCommit
    finishSave block (batch ++ [.extCommit block.height (some seenExtendedCommit)])

/-- The fields of the state that `PruneBlocks` reads. -/
structure PruneState where
  lastBlockHeight : Int
  lastBlockTime : Time
  maxAgeNumBlocks : Int
  maxAgeDuration : Int

def isEvidenceExpired (state : PruneState) (height : Int) (time : Time) : Bool :=
  state.maxAgeDuration < state.lastBlockTime - time ∧
    state.maxAgeNumBlocks < state.lastBlockHeight - height

def partDeletes (height : Int) (total : Nat) : List Write :=
  (List.range total).map fun i => .blockPart height i none

/-- What `PruneBlocks` deletes of the block at a height. -/
def pruneWrites (blockMeta : BlockMeta) (height evidencePoint : Int) : List Write :=
  (if height < evidencePoint then [.blockMeta height none] else []) ++
    [.blockHash blockMeta.blockID.hash none] ++
    (if height < evidencePoint then [.blockCommit height none, .extCommit height none] else []) ++
    [.seenCommit height none] ++ partDeletes height blockMeta.blockID.partSetHeader.total.toNat

/-- The point below which metas and commits are deleted, once a block was looked at. -/
def evidencePointAt (state : PruneState) (retain evidencePoint height : Int)
    (blockMeta : BlockMeta) : Int :=
  if evidencePoint = retain ∧ isEvidenceExpired state height blockMeta.header.time = false then
    height
  else evidencePoint

/-- The loop of `PruneBlocks` over `n` heights from `h` on. Every 1000 blocks the batch is flushed,
with the height of its last block as the base. -/
def pruneLoop (unmarshal : Bytes → Option Block) (state : PruneState) (retain : Int) :
    Nat → Int → Int → Nat → List Write → Durable DB (List Write × Nat × Int)
  | 0, _, evidencePoint, pruned, batch => pure (batch, pruned, evidencePoint)
  | n + 1, h, evidencePoint, pruned, batch => do
    let db ← read
    let _ ← lift (loadBlock unmarshal db h)
    match db.blockMeta h with
    | none => pruneLoop unmarshal state retain n (h + 1) evidencePoint pruned batch
    | some blockMeta =>
      if (pruned + 1) % 1000 = 0 then do
        saveStateAndWriteDB
          (batch ++ pruneWrites blockMeta h
            (evidencePointAt state retain evidencePoint h blockMeta))
          h db.height
        pruneLoop unmarshal state retain n (h + 1)
          (evidencePointAt state retain evidencePoint h blockMeta) (pruned + 1) []
      else
        pruneLoop unmarshal state retain n (h + 1)
          (evidencePointAt state retain evidencePoint h blockMeta) (pruned + 1)
          (batch ++ pruneWrites blockMeta h
            (evidencePointAt state retain evidencePoint h blockMeta))

/-- `PruneBlocks`: the number of blocks pruned and the evidence point. -/
def pruneBlocks (unmarshal : Bytes → Option Block) (height : Int) (state : PruneState) :
    Durable DB (Nat × Int) := do
  let db ← read
  if height ≤ 0 then fail "height must be greater than 0"
  else if db.height < height then
    fail s!"cannot prune beyond the latest height {db.height}"
  else if height < db.base then
    fail s!"cannot prune to height {height}, it is lower than base height {db.base}"
  else do
    let (batch, pruned, evidencePoint) ←
      pruneLoop unmarshal state height (height - db.base).toNat db.base height 0 []
    saveStateAndWriteDB batch height db.height
    pure (pruned, evidencePoint)

/-- What `DeleteLatestBlock` deletes, with what is known of the block from its meta. -/
def deleteWrites (db : DB) : List Write :=
  (match db.blockMeta db.height with
    | none => []
    | some blockMeta => .blockHash blockMeta.blockID.hash none ::
        partDeletes db.height blockMeta.blockID.partSetHeader.total.toNat) ++
    [.blockCommit db.height none, .seenCommit db.height none, .blockMeta db.height none]

def deleteLatestBlock : Durable DB Unit := do
  let db ← read
  saveStateAndWriteDB (deleteWrites db) db.base (db.height - 1)

end CelestiaCore.BlockStore
