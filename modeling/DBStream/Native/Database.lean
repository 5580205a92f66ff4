import DBStream.Native.SolidBlock

/-!
# The database: inserting, rotating and seeking

`insert`, `finishAppendingBlock`, `createNewBlock` and `allocMemForRecord` of
`database/database.cpp`, and `databaseRecordIdIterator::seek` of
`database/databaseIterator.cpp`.

`m_blocks` maps consecutive block ids to blocks; here it is the list `finished` of the
blocks before the current one.  `insert` and `allocMemForRecord` call themselves after a
rotation, so they take fuel; `none` means that it ran out.  The k-th attempt of a call
reads the k-th element of its environment.
-/

namespace DBStream.Native

variable {I : IndexImpl}

/-- The settings of `initConfig` that blocks are made with. -/
structure Config where
  m_blockDefaultSize : Nat
  m_redo : Bool
  m_compress : Bool
  m_redoFlushDataSize : Int
  m_redoFlushPeriod : Int
  size_ge : 32 * 1024 ≤ m_blockDefaultSize
  size_le : m_blockDefaultSize ≤ 1024 * 1024 * 1024

/-- The flags of a new appending block. -/
def Config.flag (cfg : Config) : BlockFlag :=
  { appending := true, hasRedo := cfg.m_redo, compress := cfg.m_compress }

/-- A new appending block. -/
def Config.newBlock (cfg : Config) (blockId startID : Nat) : AppendingBlock I :=
  .create blockId cfg.flag cfg.m_blockDefaultSize cfg.m_redoFlushDataSize cfg.m_redoFlushPeriod
    startID

/-- What the environment answers during one attempt: to the redo calls of `append` and of
    `finishRedo`, and whether the flush queue takes the block. -/
structure CallIo where
  append : RedoIo
  finish : RedoIo
  pushed : Bool

/-- `database`.  `finished` are the blocks with ids from `m_firstBlockId` on, `m_current` is the
    next one.  `dangling` says that `m_blocks` still has the block `createNewBlock` gave up. -/
structure Database (I : IndexImpl) where
  cfg : Config
  running : Bool
  m_tnxId : Nat
  m_recordId : Nat
  m_firstBlockId : Nat
  finished : List (AppendingBlock I)
  m_current : AppendingBlock I
  dangling : Bool

/-- `finishAppendingBlock`: whether the block could be closed, and the block after it. -/
def AppendingBlock.finishAppendingBlock (b : AppendingBlock I) (io : CallIo) :
    Bool × AppendingBlock I :=
  if b.m_flag.flushed then (true, b)
  else if b.m_flag.hasRedo then
    let (ok, redo) := b.redo.finishRedo b.m_flag.hasRedo b.m_minLogOffset io.finish
    (ok && io.pushed, b.setRedo redo)
  else (io.pushed, b)

namespace Database

/-- The database on an empty directory, with the ids `load` starts from. -/
def start (cfg : Config) (blockId recordId : Nat) : Database I where
  cfg := cfg
  running := true
  m_tnxId := 1
  m_recordId := recordId
  m_firstBlockId := blockId
  finished := []
  m_current := cfg.newBlock blockId recordId
  dangling := false

variable (db : Database I)

/-- `createNewBlock`: a block for the next ids; if the old block cannot be closed it stays the
    current one, and the new block is deleted but not taken out of `m_blocks`. -/
def createNewBlock (io : CallIo) : Bool × Database I :=
  let newBlock : AppendingBlock I :=
    { db.cfg.newBlock (db.m_current.m_blockID + 1) db.m_recordId with
      m_prevBlockID := db.m_current.m_blockID }
  let (ok, tmp) := db.m_current.finishAppendingBlock io
  if ok then
    (true, { db with
      finished := db.finished ++ [tmp], m_current := newBlock, dangling := false })
  else (false, { db with m_current := tmp, dangling := true })

/-- `database::insert`: whether the record was stored. -/
def insert (Γ : MetaDataCollection I) :
    Nat → (Nat → CallIo) → Database I → Record → Exec (Option (Bool × Database I))
  | 0, _, _, _ => .ok none
  | fuel + 1, env, db, r =>
    if db.running then do
      let r := r.prepare db.m_tnxId db.m_recordId
      let db := { db with m_recordId := db.m_recordId + 1 }
      let (s, b) ← db.m_current.append Γ r (env 0).append
      let db := { db with m_current := b }
      match s with
      | .B_OK => return some (true, db)
      | .B_FULL =>
        let (ok, db) := db.createNewBlock (env 0)
        if ok then insert Γ fuel (fun k => env (k + 1)) db r
        else return some (false, { db with running := false })
      | _ => return some (false, { db with running := false })
    else .ok (some (false, db))

/-- `database::allocMemForRecord`: whether memory was found. -/
def allocMemForRecord (Γ : MetaDataCollection I) :
    Nat → (Nat → CallIo) → Database I → Nat → Nat → Exec (Option (Bool × Database I))
  | 0, _, _, _, _ => .ok none
  | fuel + 1, env, db, tableId, size => do
    let (s, b) ← db.m_current.allocMemForTable (Γ.get tableId) size
    let db := { db with m_current := b }
    match s with
    | .B_OK => return some (true, db)
    | .B_FULL =>
      let (ok, db) := { db with m_current := db.m_current.finish }.createNewBlock (env 0)
      if ok then allocMemForRecord Γ fuel (fun k => env (k + 1)) db tableId size
      else return some (false, db)
    | _ => return some (false, db)

/-! ## Seeking by record id -/

/-- The blocks in id order. -/
def chain : List (AppendingBlock I) := db.finished ++ [db.m_current]

def m_lastBlockId : Nat :=
  db.m_firstBlockId + db.finished.length + db.dangling.toNat

/-- `getBasciBlock`: null outside of the ids in use. -/
def getBasciBlock (blockId : Nat) : Exec (Option (AppendingBlock I)) :=
  if db.m_lastBlockId < 1 ∨ blockId < db.m_firstBlockId ∨ db.m_lastBlockId < blockId then .ok none
  else
    match db.chain[blockId - db.m_firstBlockId]? with
    | some b => .ok (some b)
    | none => .error .dangling

end Database

/-- `lastRecordId`, a `uint64_t`. -/
def AppendingBlock.lastRecordId (b : AppendingBlock I) : Nat :=
  (((b.m_minRecordId + b.m_recordCount : Nat) - 1 : Int) % 2 ^ 64).toNat

/-- Where an iterator stands: the block, the number in the block and the record id. -/
structure SeekPos where
  blockId : Nat
  m_recordId : Nat
  m_realRecordId : Nat
  deriving DecidableEq

/-- `ITER_FLAG_DESC`; it shares a bit with `ITER_FLAG_WAIT`. -/
def ITER_FLAG_DESC : Nat := 5

/-- `appendingBlockRecordIdIterator::seek` of an iterator without filter.  The descending step
    calls the filter without looking whether there is one. -/
def AppendingBlock.seekRecordId (b : AppendingBlock I) (flag recordId : Nat) :
    Exec (Option SeekPos) :=
  if recordId < b.m_minRecordId ∨ b.m_minRecordId + b.m_recordCount < recordId then .ok none
  else
    let seekedId := (recordId - b.m_minRecordId + (2 ^ 32 - 1)) % 2 ^ 32
    if flag &&& ITER_FLAG_DESC = 0 then
      let next := (seekedId + 1) % 2 ^ 32
      if b.m_recordCount ≤ next then .ok none
      else .ok (some ⟨b.m_blockID, next, b.m_minRecordId + next⟩)
    else if seekedId = 0 then .ok none
    else .error .nullDeref

namespace Database

variable (db : Database I)

/-- The binary search of `databaseRecordIdIterator::seek` over the block ids from `s` to `e`, with
    fuel for one turn per id.  `m` is never below `m_firstBlockId`, so the restart for that case is
    left out. -/
def findBlock (recordId : Nat) : Nat → Int → Int → Exec (Option (AppendingBlock I))
  | 0, _, _ => .ok none
  | fuel + 1, s, e =>
    if s ≤ e then do
      let m := (s + e) / 2
      match ← db.getBasciBlock m.toNat with
      | none => return none
      | some b =>
        if b.lastRecordId < recordId then findBlock recordId fuel (m + 1) e
        else if recordId < b.m_minRecordId then findBlock recordId fuel s (m - 1)
        else return some b
    else .ok none

def seek (flag recordId : Nat) : Exec (Option SeekPos) := do
  match ← db.findBlock recordId (db.m_lastBlockId + 1 - db.m_firstBlockId) db.m_firstBlockId
      db.m_lastBlockId with
  | none => return none
  | some b => b.seekRecordId flag recordId

end Database

end DBStream.Native
