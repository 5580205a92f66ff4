import DBStream.Native.Block

/-!
# The redo file of an appending block

`openRedoFile`, `writeRedo`, `finishRedo` and `closeRedo` of
`database/appendingBlock.cpp`.  The state is the redo part of the block together
with what lies on disk under the name of the redo file.  A write goes to the
descriptor it names: it reaches the redo file only when that descriptor is the one
the file was opened under.  All writes are at the end of the file, since every
`openRedoFile(true)` seeks there and nothing seeks back.

What the operating system answers during one call is a `RedoIo`.
-/

namespace DBStream.Native

/-- `fileHandleValid` of `util/fileOptUnix.h`. -/
def fileHandleValid (fd : Int) : Bool := 0 ≤ fd

def INVALID_HANDLE_VALUE : Int := -1

def CLOCKS_PER_SEC : Int := 1000000

inductive AppendingBlockStaus where
  | B_OK | B_FULL | B_ILLEGAL | B_FAULT
  deriving DecidableEq

/-- The answers of the system calls made during one call of a redo function: the result of
    `open`, whether `lseek` works, how many bytes of the file head and of the data are written,
    whether `fsync` works, and the two readings of `clock`. -/
structure RedoIo where
  openFd : Int
  seekOk : Bool
  headWritten : Nat
  dataWritten : Nat
  synced : Bool
  now : Int
  flushedAt : Int
  deriving DecidableEq

/-- The redo fields of the block and the redo file.  `openFd` is the descriptor the file is open
    under, `file` its contents (`none` while it does not exist). -/
structure RedoState where
  m_redoFd : Int
  m_redoUnflushDataSize : Int
  m_redoFlushDataSize : Int
  m_redoFlushPeriod : Int
  m_lastFLushTime : Int
  openFd : Option Int
  file : Option (List UInt8)
  deriving DecidableEq

namespace RedoState

/-- The bytes under the name of the redo file. -/
def content (r : RedoState) : List UInt8 := r.file.getD []

/-- `writeFile(m_redoFd, bs, ...)`. -/
def writeFile (r : RedoState) (bs : List UInt8) : RedoState :=
  if r.openFd = some r.m_redoFd then { r with file := some (r.content ++ bs) } else r

/-- `closeFile(m_redoFd); m_redoFd = INVALID_HANDLE_VALUE`. -/
def closeFile (r : RedoState) : RedoState :=
  { r with
    openFd := if r.openFd = some r.m_redoFd then none else r.openFd
    m_redoFd := INVALID_HANDLE_VALUE }

/-- `appendingBlock::openRedoFile`: the result is `0` (`true`) or `-1` (`false`).  A file opened
    for writing gets `m_minLogOffset` as its head if it is empty. -/
def openRedoFile (r : RedoState) (w : Bool) (m_minLogOffset : Nat) (io : RedoIo) :
    Bool × RedoState :=
  if fileHandleValid io.openFd then
    let r := { r with
      m_redoFd := io.openFd
      openFd := some io.openFd
      file := some r.content }
    if w then
      if io.seekOk then
        if r.content.length = 0 then
          let r := r.writeFile ((LE.bytes 8 m_minLogOffset).take io.headWritten)
          if io.headWritten < 8 then (false, r.closeFile) else (true, r)
        else (true, r)
      else (false, r.closeFile)
    else (true, r)
  else (false, { r with m_redoFd := io.openFd })

/-- Whether `writeRedo` has to call `fsync` after `size` more bytes, and the count of unflushed
    bytes at that point (an `int32_t`). -/
def flushDue (r : RedoState) (size : Nat) (now : Int) : Bool × Int :=
  if r.m_redoFlushDataSize = 0 ∨ r.m_redoFlushPeriod = 0 then (true, r.m_redoUnflushDataSize)
  else
    let unflushed := if 0 < r.m_redoFlushDataSize then
      Int.bmod (r.m_redoUnflushDataSize + size) (2 ^ 32) else r.m_redoUnflushDataSize
    (decide ((0 < r.m_redoFlushDataSize ∧ r.m_redoFlushDataSize ≤ unflushed) ∨
      (0 < r.m_redoFlushPeriod ∧ (now < r.m_lastFLushTime ∨
        r.m_redoFlushPeriod * CLOCKS_PER_SEC / 1000 < now - r.m_lastFLushTime))), unflushed)

def writeRedo (r : RedoState) (m_minLogOffset : Nat) (io : RedoIo) (data : List UInt8) :
    AppendingBlockStaus × RedoState :=
  let opened := if fileHandleValid r.m_redoFd then (true, r)
    else r.openRedoFile true m_minLogOffset io
  if opened.1 then
    let r := opened.2.writeFile (data.take io.dataWritten)
    if io.dataWritten < data.length then (.B_FAULT, r)
    else
      let due := r.flushDue data.length io.now
      let r := { r with m_redoUnflushDataSize := due.2 }
      if due.1 then
        if io.synced then
          (.B_OK, { r with m_redoUnflushDataSize := 0, m_lastFLushTime := io.flushedAt })
        else (.B_FAULT, r)
      else (.B_OK, r)
  else (.B_FAULT, opened.2)

/-- `appendingBlock::closeRedo`, for a block whose flags say `hasRedo`. -/
def closeRedo (r : RedoState) (hasRedo : Bool) (io : RedoIo) : Bool × RedoState :=
  if hasRedo && fileHandleValid r.m_redoFd then
    if io.synced then (true, r.closeFile) else (false, r)
  else (true, r)

/-- `appendingBlock::finishRedo`: the end marker, then `closeRedo`. -/
def finishRedo (r : RedoState) (hasRedo : Bool) (m_minLogOffset : Nat) (io : RedoIo) :
    Bool × RedoState :=
  let opened := if fileHandleValid r.m_redoFd then (true, r)
    else r.openRedoFile true m_minLogOffset io
  if opened.1 then
    let r := opened.2.writeFile ((LE.bytes 8 ENDOF_REDO_NUM).take io.dataWritten)
    if io.dataWritten < 8 then (false, r.closeFile) else r.closeRedo hasRedo io
  else (false, opened.2)

end RedoState

end DBStream.Native
