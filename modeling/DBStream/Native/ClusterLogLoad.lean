import DBStream.Native.ClusterLogFile

/-!
# Loading a file of the cluster log

`recovery` and `load` of `cluster/clusterLogFile.cpp` from the bytes of the two files.  What a fresh
buffer holds is a parameter, since `recoveryIndexFromLastBlock` reads places it has not written.
The places of the read handles are passed along with the object.
-/

namespace DBStream.Native.CLUSTER

/-- The difference of two `uint32_t`. -/
def sub32 (a b : Nat) : Nat := (a + 2 ^ 32 - b % 2 ^ 32) % 2 ^ 32

def truncateFile (file : List UInt8) (size : Nat) : List UInt8 :=
  file.take size ++ List.replicate (size - file.length) 0

namespace LogFile

variable (cfg : LogConfig) (readOnly : Bool)

/-- The constructor, for a file on disk with its index. -/
def new (fileId : Nat) (file : List UInt8) (indexFile : Option (List UInt8)) : LogFile where
  m_fileId := fileId
  m_offset := 0
  m_blockCount := 0
  m_beginLogIndex := ⟨0, 0⟩
  m_prevLogIndex := ⟨0, 0⟩
  m_logIndex := ⟨0, 0⟩
  m_blocks := none
  m_currentBlock := none
  m_next := none
  m_fd := none
  m_indexFd := none
  file := file
  indexFile := indexFile

/-- What `readRecordHead` does with an unfinished record. -/
def endRecord (f : LogFile) (pos : Nat) : Status (LogFile × Option (List UInt8)) :=
  if readOnly then .error .ioError
  else .ok ({ f with file := truncateFile f.file pos }, none)

/-- `readRecordHead` with the handle at `fd`: the bytes of the head, or none for `endOfFile`. -/
def readRecordHead (f : LogFile) (fd dataFileSize pos : Nat) :
    Status (LogFile × Option (List UInt8)) :=
  if sub32 dataFileSize pos < logEntryRpcBaseSize then f.endRecord readOnly (pos % 2 ^ 32)
  else
    let head := f.file.slice fd logEntryRpcBaseSize
    if head.length ≠ logEntryRpcBaseSize then .error .ioError
    else if sub32 dataFileSize pos < headSize head 0 then f.endRecord readOnly (pos % 2 ^ 32)
    else .ok (f, some head)

/-- The reads of `recoveryIndexFromLastBlock` for one block. -/
structure BlockRead where
  f : LogFile
  fd : Nat
  pos : Nat
  off : Nat
  buffer : List UInt8
  head : List UInt8

/-- The body of a record goes to the buffer behind its head. -/
def readBody (r : BlockRead) : Option (Status BlockRead) :=
  if r.buffer.length < r.off + logEntryRpcBaseSize then none
  else
    let buffer := writeFile r.buffer r.off r.head
    -- the offset counts entries here, not bytes
    if buffer.length < r.off * logEntryRpcBaseSize + 4 then none
    else
      let readSize := sub32 (headSize buffer (r.off * logEntryRpcBaseSize)) logEntryRpcBaseSize
      let body := r.f.file.slice r.fd readSize
      if buffer.length < r.off + raftRpcHeadSize + body.length then none
      else if body.length ≠ readSize then some (.error .ioError)
      else
        some (.ok { r with
          buffer := writeFile buffer (r.off + raftRpcHeadSize) body
          fd := r.fd + readSize
          off := r.off + headSize r.head 0
          pos := r.pos + readSize })

/-- The inner loop of `recoveryIndexFromLastBlock`. -/
def readBlock (dataFileSize : Nat) : Nat → BlockRead → Option (Status BlockRead)
  | 0, _ => none
  | fuel + 1, r =>
    dsReturnIfFailed (readBody r) fun r =>
      if r.pos = dataFileSize then some (.ok r)
      else
        dsReturnIfFailed (some (r.f.readRecordHead readOnly r.fd dataFileSize r.pos)) fun (f, head) =>
          match head with
          | none => some (.ok { r with f := f })
          | some head =>
            let r := { r with
              f := f
              head := head
              fd := r.fd + logEntryRpcBaseSize
              pos := r.pos + logEntryRpcBaseSize }
            if (headSize head 0 + r.off) % 2 ^ 32 ≥ r.buffer.length then some (.ok r)
            else readBlock dataFileSize fuel r

/-- The block that was read goes to `m_blocks` and to the index file. -/
def addRead (r : BlockRead) (idx : Index) : Option LogFile := do
  let blocks ← r.f.m_blocks
  if r.f.m_blockCount < cfg.maxBlockCount then
    let b : Block := ⟨idx, some (r.buffer.take r.off), r.buffer.length, r.off, r.off, none⟩
    let blocks := blocks.modify (r.f.m_blockCount - 1) fun p =>
      { p with size := sub32 idx.offset p.idx.offset, next := some r.f.m_blockCount }
    let f := r.f.writeIndex idx
    return { f with
      m_blocks := some (blocks ++ [b])
      m_blockCount := f.m_blockCount + 1
      m_offset := r.pos % 2 ^ 32 }
  else none

/-- The outer loop of `recoveryIndexFromLastBlock`. -/
def readBlocks (junk : Nat → UInt8) (dataFileSize : Nat) :
    Nat → LogFile → Nat → Nat → Option (Status LogFile)
  | 0, _, _, _ => none
  | fuel + 1, f, fd, pos =>
    if pos < dataFileSize then
      dsReturnIfFailed (some (f.readRecordHead readOnly fd dataFileSize pos)) fun (f, head) =>
        match head with
        | none => some (.ok f)
        | some head =>
          let bufferSize :=
            if headSize head 0 > cfg.m_defaultBlockSize then headSize head 0 else cfg.m_defaultBlockSize
          let r : BlockRead :=
            ⟨f, fd + logEntryRpcBaseSize, pos, 0, (List.range bufferSize).map junk, head⟩
          dsReturnIfFailed (readBlock readOnly dataFileSize fuel r) fun r =>
            match addRead cfg r ⟨pos % 2 ^ 32, entryLogIndex head 0⟩ with
            | none => none
            | some f => readBlocks junk dataFileSize fuel f r.fd r.pos
    else some (.ok f)

/-- `recoveryIndexFromLastBlock`.  At its end it writes through `m_blocks[m_blockCount]`, which was
    never set. -/
def recoveryIndexFromLastBlock (f : LogFile) (junk : Nat → UInt8) (fuel offset dataFileSize : Nat) :
    Option (Status LogFile) :=
  let f := { f with m_indexFd := some (indexSize * f.m_blockCount) }
  dsReturnIfFailed (readBlocks cfg readOnly junk dataFileSize fuel f offset offset) fun f =>
    if f.m_blockCount > 0 then none else some (.ok f)

/-- The blocks of an index file. -/
def indexBlocks (indexCount : Nat) (d : List UInt8) : List Block :=
  let idx (i : Nat) : Index := .ofBytes (d.slice (indexSize * i) indexSize)
  (List.range indexCount).map fun i =>
    if i + 1 < indexCount then
      ⟨idx i, none, 0, sub32 (idx (i + 1)).offset (idx i).offset, 0, some (i + 1)⟩
    else ⟨idx i, none, 0, 0, 0, none⟩

/-- `loadIndex` opens the index file and reads it, or creates it. -/
def readIndex (f : LogFile) : Option LogFile :=
  match f.indexFile with
  | none => some { f with indexFile := some [], m_indexFd := some 0 }
  | some d =>
    let indexCount := d.length / indexSize
    if indexCount ≤ cfg.maxBlockCount then
      some { f with
        m_indexFd := some (indexSize * indexCount)
        indexFile := some (d.take (indexSize * indexCount))
        m_blocks := some (indexBlocks indexCount d)
        m_blockCount := indexCount }
    else none

def loadIndex (f : LogFile) (junk : Nat → UInt8) (fuel : Nat) : Option (Status LogFile) := do
  let dataFileSize := f.file.length
  let f ← f.readIndex cfg
  let blocks ← f.m_blocks
  if f.m_blockCount = 0 then
    if dataFileSize ≥ HEAD_SIZE then
      f.recoveryIndexFromLastBlock cfg readOnly junk fuel HEAD_SIZE (dataFileSize % 2 ^ 32)
    else return .error .emptyLogFile
  else
    let b ← blocks[f.m_blockCount - 1]?
    if (dataFileSize : Int) - b.idx.offset < cfg.m_defaultBlockSize then
      let f := f.setBlock (f.m_blockCount - 1) { b with size := sub32 dataFileSize b.idx.offset }
      return .ok { f with m_offset := dataFileSize % 2 ^ 32 }
    else
      f.recoveryIndexFromLastBlock cfg readOnly junk fuel b.idx.offset (dataFileSize % 2 ^ 32)

def readMetaInfo (f : LogFile) : Status LogFile :=
  if f.file.length < HEAD_SIZE then .error .ioError
  else
    .ok { f with
      m_prevLogIndex := .ofBytes (f.file.take 16)
      m_beginLogIndex := .ofBytes (f.file.slice 16 16) }

/-- `m_blocks` is allocated if it is not there. -/
def allocBlocks (f : LogFile) : LogFile := { f with m_blocks := some (f.m_blocks.getD []) }

/-- The end of `recovery`: the last block becomes the current one. -/
def useLastBlock (f : LogFile) : Option (Status LogFile) :=
  if f.m_blockCount = 0 then some (.ok { f with m_fd := some HEAD_SIZE })
  else do
    let blocks ← f.m_blocks
    let b ← blocks[f.m_blockCount - 1]?
    match f.loadBlock b with
    | .error code => return .error code
    | .ok data =>
      let f := f.setBlock (f.m_blockCount - 1) { b with data := some data }
      return .ok { f with
        m_currentBlock := some (f.m_blockCount - 1)
        m_fd := some (b.idx.offset + b.size) }

def recovery (f : LogFile) (junk : Nat → UInt8) (fuel : Nat) : Option (Status LogFile) :=
  let info :=
    if f.m_beginLogIndex.invalid ∨ f.m_prevLogIndex.invalid then f.readMetaInfo else .ok f
  dsReturnIfFailed (some info) fun f =>
    dsReturnIfFailed (f.allocBlocks.loadIndex cfg false junk fuel) useLastBlock

def load (f : LogFile) (junk : Nat → UInt8) (fuel : Nat) : Option (Status LogFile) :=
  f.allocBlocks.loadIndex cfg true junk fuel

end LogFile

end DBStream.Native.CLUSTER
