import DBStream.Native.LogEntryRpc

/-!
# A file of the cluster log

`clusterLogFile` of `cluster/clusterLogFile.cpp`, as the one writer uses it.  The object holds what
it has in memory and the bytes of its data and index file, with the places its handles stand at.

A result is `none` where the code dereferences a null or dangling pointer or leaves a buffer.
System calls succeed where their arguments allow it.
-/

namespace DBStream.Native.CLUSTER

/-- `dsStatus` with what the function changes if it is `ok`. -/
abbrev Status (α : Type) := Except ErrorCode α

def dsReturnIfFailed {α β : Type} (s : Option (Status α)) (next : α → Option (Status β)) :
    Option (Status β) :=
  match s with
  | none => none
  | some (.error code) => some (.error code)
  | some (.ok a) => next a

@[simp] theorem dsReturnIfFailed_ok {α β : Type} {a : α} {next : α → Option (Status β)} :
    dsReturnIfFailed (some (.ok a)) next = next a := rfl

theorem dsReturnIfFailed_eq_ok {α β : Type} {s : Option (Status α)} {next : α → Option (Status β)}
    {b : β} : dsReturnIfFailed s next = some (.ok b) ↔
      ∃ a, s = some (.ok a) ∧ next a = some (.ok b) := by
  match s with
  | none => simp [dsReturnIfFailed]
  | some (.error code) => simp [dsReturnIfFailed]
  | some (.ok a) => simp [dsReturnIfFailed]

def HEAD_SIZE : Nat := 32

/-- The bytes of a file after a write at a place; a hole before it reads as zero. -/
def writeFile (file : List UInt8) (pos : Nat) (d : List UInt8) : List UInt8 :=
  if d = [] then file
  else file.take pos ++ List.replicate (pos - file.length) 0 ++ d ++ file.drop (pos + d.length)

/-- `block`.  Its `id` is its place in `m_blocks`, and `data` holds `size` bytes. -/
structure Block where
  idx : Index
  data : Option (List UInt8)
  volumn : Nat
  size : Nat
  writedSize : Nat
  next : Option Nat

namespace Block

/-- The constructor with the first entry. -/
def new (defaultBlockSize offset : Nat) (logEntry : LogEntryRpcBase) : Block where
  idx := ⟨offset, logEntry.logIndex⟩
  data := some logEntry.bytes
  volumn := if logEntry.size > defaultBlockSize then logEntry.size else defaultBlockSize
  size := logEntry.size
  writedSize := 0
  next := none

def append (b : Block) (logEntry : LogEntryRpcBase) : Option Block := do
  let data ← b.data
  if b.size + logEntry.size ≤ b.volumn then
    return { b with data := some (data ++ logEntry.bytes), size := b.size + logEntry.size }
  else none

def close (b : Block) : Block := { b with data := none }

/-- The loop of `find` from the entry at `pos` on. -/
def findFrom (data : List UInt8) (logIndex : LogIndexInfo) : Nat → Nat → Option (Option Nat)
  | 0, _ => none
  | fuel + 1, pos =>
    if pos < data.length then
      if data.length < pos + 22 then none
      else if entryLogIndex data pos < logIndex then
        findFrom data logIndex fuel (pos + headSize data pos)
      else some (some pos)
    else some none

/-- `find` in a block with these bytes; `INVALID_RESULT` is `some none`. -/
def find (data : List UInt8) (logIndex : LogIndexInfo) : Option (Option Nat) :=
  findFrom data logIndex (data.length + 1) 0

end Block

/-- `clusterLogFile`.  `close` deletes `m_blocks`; `m_next` is the place of a file in the log, and a
    handle the place it stands at. -/
structure LogFile where
  m_fileId : Nat
  m_offset : Nat
  m_blockCount : Nat
  m_beginLogIndex : LogIndexInfo
  m_prevLogIndex : LogIndexInfo
  m_logIndex : LogIndexInfo
  m_blocks : Option (List Block)
  m_currentBlock : Option Nat
  m_next : Option Nat
  m_fd : Option Nat
  m_indexFd : Option Nat
  file : List UInt8
  indexFile : Option (List UInt8)

namespace LogFile

variable (f : LogFile) (cfg : LogConfig)

/-- `create` of the file with this id, which must not exist. -/
def create (fileId : Nat) (prevLogIndex beginLogIndex : LogIndexInfo) : LogFile where
  m_fileId := fileId
  m_offset := HEAD_SIZE
  m_blockCount := 0
  m_beginLogIndex := beginLogIndex
  m_prevLogIndex := prevLogIndex
  m_logIndex := prevLogIndex
  m_blocks := some []
  m_currentBlock := none
  m_next := none
  m_fd := some HEAD_SIZE
  m_indexFd := none
  file := prevLogIndex.bytes ++ beginLogIndex.bytes
  indexFile := none

/-- `m_currentBlock` and `*m_currentBlock`. -/
def currentBlock : Option (Nat × Block) := do
  let blocks ← f.m_blocks
  let id ← f.m_currentBlock
  let b ← blocks[id]?
  return (id, b)

/-- A store to a block. -/
def setBlock (id : Nat) (b : Block) : LogFile := { f with m_blocks := f.m_blocks.map (·.set id b) }

def writeCurrentBlock : Option (Status LogFile) := do
  let (id, b) ← f.currentBlock
  if b.size = b.writedSize then return .ok f
  else
    let data ← b.data
    if b.size < b.writedSize then none
    else
      match f.m_fd with
      | none => return .error .ioError
      | some pos =>
        let d := data.drop b.writedSize
        let f := f.setBlock id { b with writedSize := b.size }
        return .ok { f with file := writeFile f.file pos d, m_fd := some (pos + d.length) }

/-- The write of `appendToNewBlock` to the index file, which it opens if need be. -/
def writeIndex (idx : Index) : LogFile :=
  let pos := f.m_indexFd.getD (indexSize * f.m_blockCount)
  { f with
    m_indexFd := some (pos + indexSize)
    indexFile := some (writeFile (f.indexFile.getD []) pos idx.bytes) }

/-- The new block goes to the end of `m_blocks`, and the current one is left for it. -/
def addBlock (newBlock : Block) : Option LogFile := do
  let blocks ← f.m_blocks
  if f.m_blockCount < cfg.maxBlockCount then
    let blocks := match f.m_currentBlock with
      | none => blocks
      | some id => blocks.modify id fun b => { b.close with next := some f.m_blockCount }
    return { f with
      m_blocks := some (blocks ++ [newBlock])
      m_blockCount := f.m_blockCount + 1
      m_currentBlock := some f.m_blockCount }
  else none

def appendToNewBlock (logEntry : LogEntryRpcBase) : Option (Status LogFile) :=
  dsReturnIfFailed (if f.m_currentBlock = none then some (.ok f) else f.writeCurrentBlock) fun f =>
    let newBlock := Block.new cfg.m_defaultBlockSize f.m_offset logEntry
    ((f.writeIndex newBlock.idx).addBlock cfg newBlock).map .ok

/-- The end of `_append`. -/
def stored (logEntry : LogEntryRpcBase) : LogFile :=
  { f with
    m_logIndex := logEntry.logIndex
    m_offset := (f.m_offset + logEntry.size) % 2 ^ 32 }

/-- `_append` in a new block. -/
def storeInNewBlock (logEntry : LogEntryRpcBase) : Option (Status LogFile) :=
  dsReturnIfFailed (f.appendToNewBlock cfg logEntry) fun f => some (.ok (f.stored logEntry))

def _append (logEntry : LogEntryRpcBase) : Option (Status LogFile) :=
  if f.m_currentBlock = none then f.storeInNewBlock cfg logEntry
  else do
    let (id, b) ← f.currentBlock
    if (b.size + logEntry.size) % 2 ^ 32 + raftRpcHeadSize > b.volumn then
      if f.m_blockCount + 1 ≥ cfg.maxBlockCount then return .error .full
      else f.storeInNewBlock cfg logEntry
    else
      let b ← b.append logEntry
      return .ok ((f.setBlock id b).stored logEntry)

def append (logEntry : LogEntryRpcBase) : Option (Status LogFile) :=
  if f.m_logIndex ≠ logEntry.prevRecordLogIndex then
    if f.m_logIndex < logEntry.prevRecordLogIndex then some (.error .prevNotMatch)
    else some (.error .rollback)
  else if (f.m_offset + logEntry.size) % 2 ^ 32 ≥ cfg.m_defaultLogFileSize then some (.error .full)
  else f._append cfg logEntry

/-- The `raftRpcHead` that ends a file. -/
def endMark : RaftRpcHead := ⟨raftRpcHeadSize, CLUSTER.endOfFile, VERSION⟩

/-- `finish` copies the mark behind the current block. -/
def markEnd : Option LogFile := do
  let (id, b) ← f.currentBlock
  let data ← b.data
  if b.size + raftRpcHeadSize ≤ b.volumn then
    let b := { b with data := some (data ++ endMark.bytes), size := b.size + raftRpcHeadSize }
    return { f.setBlock id b with m_offset := (f.m_offset + raftRpcHeadSize) % 2 ^ 32 }
  else none

/-- The current block is not used any more, and the data file is closed. -/
def leave : Option LogFile := do
  let (id, b) ← f.currentBlock
  return { f.setBlock id b.close with m_fd := none }

def finish : Option (Status LogFile) := do
  let f ← f.markEnd
  dsReturnIfFailed f.writeCurrentBlock fun f => f.leave.map .ok

/-- `close` writes the current block; what `writeCurrentBlock` returns is ignored. -/
def closeFd : Option LogFile :=
  if f.m_fd = none ∨ f.m_currentBlock = none then some f
  else do
    let (_, b) ← f.currentBlock
    if b.size > b.writedSize then
      match ← f.writeCurrentBlock with
      | .error _ => return f
      | .ok f => return f
    else return f

def close : Option LogFile :=
  f.closeFd.map fun f => { f with m_fd := none, m_indexFd := none, m_blocks := none }

/-! ## Finding and rolling back -/

/-- The loop of `findBlock`: the block it returns from, or the bounds it leaves with. -/
def searchBlock (blocks : List Block) (logIndex : LogIndexInfo) :
    Nat → Int → Int → Option (Nat ⊕ Int × Int)
  | 0, _, _ => none
  | fuel + 1, s, e =>
    if s < e then do
      let m := (s + e) / 2
      let b ← blocks[m.toNat]?
      if b.idx.logIndex < logIndex then searchBlock blocks logIndex fuel (m + 1) e
      else if b.idx.logIndex > logIndex then searchBlock blocks logIndex fuel s (m - 1)
      else return .inl m.toNat
    else some (.inr (s, e))

/-- Where the block at `s` ends. -/
def blockEnd (blocks : List Block) (s : Nat) : Option LogIndexInfo :=
  if s + 1 = f.m_blockCount then
    some { f.m_logIndex with logIndex := (f.m_logIndex.logIndex + 1) % 2 ^ 64 }
  else (blocks[s + 1]?).map (·.idx.logIndex)

/-- `findBlock`: the id of the block; `nullptr` is `some none`. -/
def findBlock (logIndex : LogIndexInfo) : Option (Option Nat) :=
  if f.m_blockCount = 0 then some none
  else do
    let blocks ← f.m_blocks
    match ← searchBlock blocks logIndex (f.m_blockCount + 1) 0 f.m_blockCount with
    | .inl id => return some id
    | .inr (s, e) =>
      if e < 0 then return none
      else
        let s := if s ≥ f.m_blockCount then f.m_blockCount - 1 else s.toNat
        let b ← blocks[s]?
        let blockEndLogIndex ← f.blockEnd blocks s
        return if b.idx.logIndex ≤ logIndex ∧ blockEndLogIndex > logIndex then some s else none

/-- `loadBlock`: the bytes of the block. -/
def loadBlock (b : Block) : Status (List UInt8) :=
  match b.data with
  | some data => .ok data
  | none =>
    let data := f.file.slice b.idx.offset b.size
    if data.length = b.size then .ok data else .error .ioError

/-- `truncateFile` behind a `seekFile` to the end; nothing happens without a handle. -/
def truncateIndex (size : Nat) : LogFile :=
  match f.m_indexFd, f.indexFile with
  | some _, some d =>
    { f with
      m_indexFd := some d.length
      indexFile := some (if d.length > size then d.take size else d) }
  | _, _ => f

/-- The same for the data file, whose new size is an `int32_t`. -/
def truncateData : Status LogFile :=
  match f.m_fd with
  | none =>
    -- `seekFile` gives -1, which is above the size if that is negative
    if f.m_offset ≥ 2 ^ 31 ∧ f.m_offset ≠ 2 ^ 32 - 1 then .error .ioError else .ok f
  | some _ =>
    let f := { f with m_fd := some f.file.length }
    if f.m_offset ≥ 2 ^ 31 then .error .ioError
    else if f.file.length > f.m_offset then .ok { f with file := f.file.take f.m_offset }
    else .ok f

/-- `rollback` ends the current block at `offsetInBlock`, before it truncates the files. -/
def cutBlock (blocks : List Block) (id offsetInBlock newBlockCount : Nat) (b : Block) : LogFile :=
  let blocks := blocks.set id { b with size := offsetInBlock }
  let m_currentBlock := if newBlockCount > 0 then some (newBlockCount - 1) else none
  let m_offset := match m_currentBlock.bind (blocks[·]?) with
    | none => 0
    | some b => (b.idx.offset + b.size) % 2 ^ 32
  { f with m_blocks := some blocks, m_currentBlock := m_currentBlock, m_offset := m_offset }

/-- `rollback` deletes the blocks behind the current one. -/
def dropBlocks (newBlockCount : Nat) : LogFile :=
  { f with
    m_blocks := f.m_blocks.map fun blocks =>
      (blocks.take newBlockCount).modify (newBlockCount - 1) fun b => { b with next := none }
    m_blockCount := newBlockCount }

/-- `rollback`: the status and the object. -/
def rollback (logIndex : LogIndexInfo) : Option (Option ErrorCode × LogFile) := do
  match ← f.findBlock logIndex with
  | none => return (none, f)
  | some id =>
    let blocks ← f.m_blocks
    let b ← blocks[id]?
    match f.loadBlock b with
    | .error code => return (some code, f)
    | .ok data =>
      match ← Block.find data logIndex with
      | none => return (none, f.setBlock id { b with data := some data })
      | some offsetInBlock =>
        let newBlockCount := if offsetInBlock = 0 then id else id + 1
        let b := { b with data := some (data.take offsetInBlock) }
        let f := f.cutBlock blocks id offsetInBlock newBlockCount b
        let f := f.truncateIndex (indexSize * newBlockCount)
        match f.truncateData with
        | .error code => return (some code, f)
        | .ok f => return (none, f.dropBlocks newBlockCount)

end LogFile

end DBStream.Native.CLUSTER
