import DBStream.Native.ClusterLog

/-!
# Reading the cluster log

`clusterLogFile::iterator` and `clusterLog::iterator`.  An iterator holds the file as `use` has loaded
it and the bytes of its block, and `refresh` takes what a writer has done to them since; the functions
of a log are about one that does not change while it is read.  A file without `m_blocks` has been
closed by its last user here, so that `use` loads it; this is so unless a rollback has failed in
`deleteFile`.
-/

namespace DBStream.Native.CLUSTER

namespace LogFile

variable (cfg : LogConfig) (junk : Nat → UInt8) (fuel : Nat)

def use (f : LogFile) : Option (Status LogFile) :=
  if f.m_blocks = none then f.load cfg junk fuel else some (.ok f)

structure Iterator where
  m_file : LogFile
  m_block : Nat
  data : List UInt8
  m_offset : Nat

namespace Iterator

/-- `use` of a block: the iterator is at its begin. -/
def rotate (f : LogFile) (id : Nat) : Option (Status Iterator) := do
  let blocks ← f.m_blocks
  let b ← blocks[id]?
  match f.loadBlock b with
  | .error code => return .error code
  | .ok data => return .ok ⟨f, id, data, 0⟩

/-- What the iterator sees of the file after a call of the writer.  As long as the writer has the block
    in memory, both use the same buffer, which stays where it is when the writer leaves the block. -/
def refresh (f : LogFile) (it : Iterator) : Iterator :=
  { it with
    m_file := f
    data := ((f.m_blocks.bind (·[it.m_block]?)).bind (·.data)).getD it.data }

def search (f : LogFile) (logIndex : LogIndexInfo) : Option (Status Iterator) := do
  match ← f.findBlock logIndex with
  | none => return .error .logIndexNotFound
  | some id =>
    dsReturnIfFailed (rotate f id) fun it => do
      match ← Block.find it.data logIndex with
      | none => return .error .logIndexNotFound
      | some off => return .ok { it with m_offset := off }

/-- `next`: the status, the bytes that `logEntry` points to, and the iterator.  There is no entry at
    the end of what is written, and the mark is one when the status is `endOfFile`. -/
def next : Nat → Iterator → Option (Option ErrorCode × Option (List UInt8) × Iterator)
  | 0, _ => none
  | n + 1, it => do
    let blocks ← it.m_file.m_blocks
    let b ← blocks[it.m_block]?
    if it.m_offset = b.size then
      match b.next with
      | some id =>
        match ← rotate it.m_file id with
        | .error code => return (some code, none, it)
        | .ok it => next n it
      | none => return (none, none, it)
    else if it.data.length < it.m_offset + raftRpcHeadSize then none
    else
      let size := headSize it.data it.m_offset
      let logEntry := it.data.slice it.m_offset size
      if headRecordType it.data it.m_offset = CLUSTER.endOfFile then
        if b.next ≠ none ∨ it.m_offset + size ≠ b.size then
          return (some .illegalLogEntry, some logEntry, it)
        else return (some .endOfFile, some logEntry, it)
      else return (none, some logEntry, { it with m_offset := it.m_offset + size })

end Iterator

end LogFile

namespace ClusterLog

variable (l : ClusterLog) (cfg : LogConfig) (junk : Nat → UInt8) (fuel : Nat)

structure Iterator where
  m_currentLogFile : Nat
  m_iter : LogFile.Iterator

namespace Iterator

def seek (logIndex : LogIndexInfo) : Option (Status Iterator) := do
  match ← l.find logIndex with
  | none => return .error .logIndexNotFound
  | some i =>
    let f ← l.files[i]?
    dsReturnIfFailed (f.use cfg junk fuel) fun f =>
      dsReturnIfFailed (LogFile.Iterator.search f logIndex) fun it => some (.ok ⟨i, it⟩)

def attachToNextLogFile (i : Nat) : Option (Status Iterator) := do
  let f ← l.files[i]?
  dsReturnIfFailed (f.use cfg junk fuel) fun f =>
    dsReturnIfFailed (LogFile.Iterator.rotate f 0) fun it => some (.ok ⟨i, it⟩)

/-- `next`: what `logEntry` is, and the iterator. -/
def next : Nat → Iterator → Option (Status (Option (List UInt8) × Iterator))
  | 0, _ => none
  | n + 1, it => do
    match ← it.m_iter.next fuel with
    | (none, logEntry, m_iter) => return .ok (logEntry, { it with m_iter := m_iter })
    | (some .endOfFile, logEntry, m_iter) =>
      let f ← l.files[it.m_currentLogFile]?
      match f.m_next with
      | none => return .ok (logEntry, { it with m_iter := m_iter })
      | some i => dsReturnIfFailed (attachToNextLogFile l cfg junk fuel i) (next n)
    | (some code, _, _) => return .error code

/-- All the entries from an iterator on. -/
def rest : Nat → Iterator → Option (Status (List (List UInt8)))
  | 0, _ => none
  | n + 1, it =>
    dsReturnIfFailed (next l cfg junk fuel fuel it) fun (logEntry, it) =>
      match logEntry with
      | none => some (.ok [])
      | some logEntry => dsReturnIfFailed (rest n it) fun entries => some (.ok (logEntry :: entries))

end Iterator

/-- The entries that an iterator reads from the first index of the first file on.  There are none if
    `seek` does not find the index. -/
def readBack : Option (Status (List (List UInt8))) := do
  let f ← l.files[0]?
  match ← Iterator.seek l cfg junk fuel f.m_beginLogIndex with
  | .error .logIndexNotFound => return .ok []
  | .error code => return .error code
  | .ok it => Iterator.rest l cfg junk fuel fuel it

end ClusterLog

end DBStream.Native.CLUSTER
