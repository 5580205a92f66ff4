import DBStream.ForStd.RawMemory

/-!
# Binlog files

`dataSource/mysqlDataSource/BinlogFile.{h,cpp}`: the writer of a binlog file with its write buffer,
and the reader that checks the log position of every event against its own offset.  Writes, reads,
seeks and `fsync` of the file succeed; `time(NULL)` is what the caller says it is.
-/

namespace DBStream.Native.DATA_SOURCE

/-! ## The event header -/

def EVENT_TYPE_OFFSET : Nat := 4
def SERVER_ID_OFFSET : Nat := 5
def EVENT_LEN_OFFSET : Nat := 9
def LOG_POS_OFFSET : Nat := 13
def FLAGS_OFFSET : Nat := 17
def LOG_EVENT_HEADER_LEN : Nat := 19
def LOG_EVENT_MINIMAL_HEADER_LEN : Nat := 19
def ROTATE_HEADER_LEN : Nat := 8
def LOG_EVENT_ARTIFICIAL_F : Nat := 0x20
def BINLOG_CHECKSUM_LEN : Nat := 4
def BINLOG_CHECKSUM_ALG_DESC_LEN : Nat := 1
def BINLOG_CHECKSUM_ALG_OFF : UInt8 := 0

def STOP_EVENT : UInt8 := 3
def ROTATE_EVENT : UInt8 := 4
def FORMAT_DESCRIPTION_EVENT : UInt8 := 15

/-- `BINLOG_ERROR`. -/
def BINLOG_ERR_EOF : Int := 1
def BINLOG_ERR_BAD_LENGTH : Int := 2
def BINLOG_ERR_INCOMPLETE : Int := 4
def BINLOG_ERR_BAD_FILENAME : Int := 6

def DEFAULT_BINLOG_BUF_SIZE : Nat := 1024 * 1024 * 4

/-- The four bytes of `headMagicNumber`. -/
def headMagicNumber : List UInt8 := LE.bytes 4 0x6e6962fe

/-! ## Files -/

/-- An open file: its bytes, the position of the handle and how many of the bytes `fsync` has made
durable. -/
structure FileHandle where
  bytes : List UInt8
  pos : Nat
  synced : Nat

namespace FileHandle

variable (f : FileHandle)

/-- A file that has just been created. -/
def fresh : FileHandle := ⟨[], 0, 0⟩

/-- `writeFile`.  Behind the end of the file the gap is zero. -/
def writeFile (d : List UInt8) : FileHandle :=
  { f with
    bytes := f.bytes.take f.pos ++ List.replicate (f.pos - f.bytes.length) 0 ++ d ++
      f.bytes.drop (f.pos + d.length)
    pos := f.pos + d.length }

/-- `readFile`: fewer bytes than asked for at the end of the file. -/
def readFile (count : Nat) : List UInt8 × FileHandle :=
  let d := f.bytes.slice f.pos count
  (d, { f with pos := f.pos + d.length })

/-- `seekFile` with `SEEK_SET`. -/
def seekSet (offset : Nat) : FileHandle := { f with pos := offset }

/-- `seekFile` with `SEEK_END`; the new position is the size of the file. -/
def seekEnd : FileHandle := { f with pos := f.bytes.length }

def fsync : FileHandle := { f with synced := f.bytes.length }

end FileHandle

/-! ## The writer -/

/-- The arguments of `writeBinlogEvent`, the memory behind `binlogEvent` included, and the clock as
the flush test and as `m_lastFlushTime` read it. -/
structure WriteCall where
  binlogEvent : RawMemory
  size : Nat
  now : Nat
  flushTime : Nat

namespace WriteCall

variable (c : WriteCall)

/-- `binlogEvent[EVENT_TYPE_OFFSET]`. -/
def eventType : UInt8 := c.binlogEvent EVENT_TYPE_OFFSET

/-- `uint4korr(binlogEvent + EVENT_LEN_OFFSET)`. -/
def binlogSize : Nat := c.binlogEvent.readWord 4 EVENT_LEN_OFFSET

/-- `uint4korr(binlogEvent + LOG_POS_OFFSET)`. -/
def binlogOffset : Nat := c.binlogEvent.readWord 4 LOG_POS_OFFSET

/-- The bytes that are written: `binlogSize` bytes at `binlogEvent`. -/
def bytes : List UInt8 := c.binlogEvent.read 0 c.binlogSize

end WriteCall

/-- `WriteBinlogFile`.  `m_writeBuf` is the block of `m_batch` bytes and `m_writerBufPos` an offset
in it. -/
structure WriteBinlogFile where
  m_fileFD : FileHandle
  m_writeBuf : List UInt8
  m_writerBufPos : Nat
  m_logOffset : Nat
  m_err : Int
  m_batch : Nat
  m_sync : Bool
  m_flushCycle : Nat
  m_lastFlushTime : Nat

namespace WriteBinlogFile

/-- The constructor.  What the write buffer holds at first is never read. -/
def new (batch_size : Nat) (sync : Bool) (flushCycle : Nat) : WriteBinlogFile where
  m_fileFD := .fresh
  m_writeBuf := List.replicate batch_size 0
  m_writerBufPos := 0
  m_logOffset := 0
  m_err := 0
  m_batch := batch_size
  m_sync := sync
  m_flushCycle := flushCycle
  m_lastFlushTime := 0

variable (w : WriteBinlogFile)

def setFileInfo (fd : FileHandle) (offset : Nat) : Int × WriteBinlogFile :=
  let w := { w with m_err := 0, m_fileFD := fd.seekEnd, m_logOffset := offset }
  if offset = 4 ∧ fd.seekEnd.pos > 0 ∨ offset ≠ 4 ∧ fd.seekEnd.pos < offset then
    (-1, { w with m_err := BINLOG_ERR_INCOMPLETE })
  else
    (0, { w with m_fileFD := ((fd.seekSet 0).writeFile headMagicNumber).seekSet offset })

/-- `writeFile` to the file of the writer. -/
def writeOut (d : List UInt8) : WriteBinlogFile := { w with m_fileFD := w.m_fileFD.writeFile d }

/-- `fsync` in the modes that ask for it. -/
def syncIf (b : Bool) : WriteBinlogFile :=
  if b then { w with m_fileFD := w.m_fileFD.fsync } else w

/-- `m_lastFlushTime = time(NULL)`, which keeps the low 32 bits. -/
def stamp (time : Nat) : WriteBinlogFile := { w with m_lastFlushTime := time % 2 ^ 32 }

def flushBuf (time : Nat) : Int × WriteBinlogFile :=
  if w.m_batch ≠ 0 then
    if w.m_writerBufPos = 0 then (0, w)
    else
      let w := { w.writeOut (w.m_writeBuf.take w.m_writerBufPos) with m_writerBufPos := 0 }
      (1, (w.syncIf w.m_sync).stamp time)
  else (1, (w.syncIf w.m_sync).stamp time)

/-- `memcpy` to the write position, which then moves behind the copy.  `none` when the copy does not
fit in the block. -/
def copyIn (d : List UInt8) : Option WriteBinlogFile :=
  if w.m_writerBufPos + d.length ≤ w.m_writeBuf.length then
    some
      { w with
        m_writeBuf := w.m_writeBuf.take w.m_writerBufPos ++ d ++
          w.m_writeBuf.drop (w.m_writerBufPos + d.length)
        m_writerBufPos := w.m_writerBufPos + d.length }
  else none

/-- The part of `writeBinlogEvent` that stores an accepted event; the flag is `flushed`. -/
def store (c : WriteCall) : Option (Bool × WriteBinlogFile) :=
  if w.m_batch ≠ 0 then
    if c.binlogSize > w.m_batch then
      -- too large for the buffer: what is pending goes first, then the event itself
      let w := ((w.flushBuf c.flushTime).2).writeOut c.bytes
      some (true, (w.syncIf w.m_sync).stamp c.flushTime)
    else do
      let full := decide (w.m_writerBufPos + c.binlogSize > w.m_batch)
      let w := if full then (w.flushBuf c.flushTime).2 else w
      let w ← w.copyIn c.bytes
      if ¬full ∧ (w.m_flushCycle : Int) ≤ c.now - w.m_lastFlushTime then
        return (true, (w.flushBuf c.flushTime).2)
      return (full, w)
  else
    let w := w.writeOut c.bytes
    some (true, w.syncIf w.m_sync)

/-- The test on the log position in `writeBinlogEvent`, with its exception for the format event at
the beginning of the file. -/
def positionFits (c : WriteCall) : Bool :=
  c.binlogOffset = (w.m_logOffset + c.binlogSize) % 2 ^ 32 ∨
    w.m_logOffset = 4 ∧ c.eventType = FORMAT_DESCRIPTION_EVENT ∧ c.binlogOffset = 0

/-- Whether `writeBinlogEvent` ignores the event as a further format event. -/
def ignores (c : WriteCall) : Bool :=
  c.eventType = FORMAT_DESCRIPTION_EVENT ∧ w.m_logOffset > 4

/-- `writeBinlogEvent`: the return value, `flushed` and the writer afterwards. -/
def writeBinlogEvent (c : WriteCall) : Option (Int × Bool × WriteBinlogFile) :=
  if c.binlogSize > c.size then
    some (-1, false, { w with m_err := BINLOG_ERR_BAD_LENGTH })
  else if w.ignores c then some (0, false, w)
  else if ¬w.positionFits c then
    some (-1, false, { w with m_err := BINLOG_ERR_BAD_LENGTH })
  else do
    let (flushed, w) ← w.store c
    return (0, flushed, { w with m_logOffset := w.m_logOffset + c.binlogSize })

def finish (time : Nat) : Int × WriteBinlogFile :=
  let w := (w.flushBuf time).2
  (0, w.syncIf !w.m_sync)

end WriteBinlogFile

/-! ## The reader -/

/-- `uint4korr` and its siblings on a buffer. -/
def korr (w : Nat) (buf : List UInt8) (off : Nat) : Nat := LE.nat (buf.slice off w)

inductive BINLOG_READ_STATUS where
  | BINLOG_READ_FAKE_ROTATE
  | BINLOG_READ_FORMAT
  | BINLOG_READ_DATA
  | BINLOG_READ_END
  deriving DecidableEq

/-- `ReadBinlogFile`.  `m_readBuf` is what the buffer holds, `m_readBufSize` how much it can hold
and `usesDefault` whether it is `m_defaultDataBuf`. -/
structure ReadBinlogFile where
  m_filePath : List UInt8
  m_fileFD : FileHandle
  m_fileSize : Nat
  m_readBuf : List UInt8
  m_readBufSize : Nat
  usesDefault : Bool
  m_logEventOffset : Nat
  m_serverId : Nat
  m_crc : UInt8
  m_nextFile : List UInt8
  m_nextBeginPos : Nat
  m_err : Int
  m_status : BINLOG_READ_STATUS

/-- The name behind the last `/` of a path. -/
def fileNameOf (filePath : List UInt8) : List UInt8 :=
  (filePath.reverse.takeWhile (· ≠ 47)).reverse

/-- The loop that predicts the next file name, on the reversed name: it adds one to the decimal
number at its end, and gives up at a character that is no digit and at the front of the name. -/
def nextName : List UInt8 → Option (List UInt8)
  | [] => none
  | c :: rest =>
    if c > 57 ∨ c < 48 then none
    else if rest = [] then none
    else if c = 57 then (nextName rest).map (48 :: ·)
    else some ((c + 1) :: rest)

namespace ReadBinlogFile

variable (r : ReadBinlogFile)

def _setPosition (offset : Nat) : Int × ReadBinlogFile :=
  if r.m_err ≠ BINLOG_ERR_EOF ∧ r.m_err ≠ 0 then (-1, r)
  else
    let r := { r with m_err := 0 }
    let offset := max offset 4
    if offset = r.m_logEventOffset then (0, r)
    else
      let r := { r with m_fileSize := r.m_fileFD.seekEnd.pos }
      if offset > r.m_fileSize then
        (-2, { r with m_fileFD := r.m_fileFD.seekSet r.m_logEventOffset })
      else (0, { r with m_fileFD := r.m_fileFD.seekSet offset, m_logEventOffset := offset })

def setPosition (offset : Nat) : Int × ReadBinlogFile :=
  let (ret, r) := r._setPosition offset
  if ret < 0 then (-1, r) else (0, { r with m_status := .BINLOG_READ_FAKE_ROTATE })

/-- `setFile`.  `file` is what `openFile` finds at the path, or its `errno`.  Of the state only the
error is set anew: the offset of the last event stays. -/
def setFile (filePath : List UInt8) (file : Except Nat (List UInt8)) (offset : Nat) :
    Int × ReadBinlogFile :=
  let r := { r with m_filePath := filePath }
  match file with
  | .error errno => (-1, { r with m_err := -errno })
  | .ok bytes =>
    setPosition { r with m_fileFD := ⟨bytes, 0, bytes.length⟩, m_err := 0 } (max offset 4)

/-- The constructor. -/
def ofPath (filePath : List UInt8) (file : Except Nat (List UInt8)) (crc : UInt8) : ReadBinlogFile :=
  (setFile
    { m_filePath := filePath, m_fileFD := .fresh, m_fileSize := 0, m_readBuf := []
      m_readBufSize := DEFAULT_BINLOG_BUF_SIZE, usesDefault := true, m_logEventOffset := 0
      m_serverId := 0, m_crc := crc, m_nextFile := [], m_nextBeginPos := 0, m_err := 0
      m_status := .BINLOG_READ_FAKE_ROTATE } filePath file 0).2

/-- The constructor, with `setFile` on a file that can be opened. -/
def new (filePath : List UInt8) (file : List UInt8) (crc : UInt8) : ReadBinlogFile :=
  (setPosition
    { m_filePath := filePath, m_fileFD := ⟨file, 0, file.length⟩, m_fileSize := 0, m_readBuf := []
      m_readBufSize := DEFAULT_BINLOG_BUF_SIZE, usesDefault := true, m_logEventOffset := 0
      m_serverId := 0, m_crc := crc, m_nextFile := [], m_nextBeginPos := 0, m_err := 0
      m_status := .BINLOG_READ_FAKE_ROTATE } 4).2

/-- The reallocation of the read buffer before the body of an event is read. -/
def reserve (binlogSize : Nat) : ReadBinlogFile :=
  if binlogSize > r.m_readBufSize then
    { r with m_readBufSize := binlogSize, usesDefault := false }
  else if r.usesDefault then r
  else if binlogSize > DEFAULT_BINLOG_BUF_SIZE then { r with m_readBufSize := binlogSize }
  else { r with m_readBufSize := DEFAULT_BINLOG_BUF_SIZE, usesDefault := true }

/-- The position check at the end of `readBinlog`. -/
def checkPosition (binlogSize : Nat) : Int × ReadBinlogFile :=
  if korr 4 r.m_readBuf LOG_POS_OFFSET ≠ (r.m_logEventOffset + binlogSize) % 2 ^ 32 then
    (-1, { r with m_err := BINLOG_ERR_BAD_LENGTH })
  else (0, { r with m_logEventOffset := r.m_logEventOffset + binlogSize })

/-- The second half of `readBinlog`, which reads the body of an event.  The number of bytes read
goes through an `int`: from 2 GiB on it is negative, and the error is then the `errno` that
`readFile` has reset. -/
def readBody (binlogSize : Nat) : Int × ReadBinlogFile :=
  let (body, fd) := r.m_fileFD.readFile (binlogSize - LOG_EVENT_MINIMAL_HEADER_LEN)
  let r := { r with m_fileFD := fd, m_readBuf := r.m_readBuf ++ body }
  if body.length ≥ 2 ^ 31 then (-1, { r with m_err := 0 })
  else if binlogSize - LOG_EVENT_MINIMAL_HEADER_LEN ≠ body.length then
    (-1, { r with m_err := BINLOG_ERR_INCOMPLETE })
  else r.checkPosition binlogSize

def readBinlog : Int × ReadBinlogFile :=
  if r.m_err ≠ 0 then (-1, r)
  else
    let (head, fd) := r.m_fileFD.readFile LOG_EVENT_MINIMAL_HEADER_LEN
    let r := { r with m_fileFD := fd, m_readBuf := head }
    if head.length = 0 then (-1, { r with m_err := BINLOG_ERR_EOF })
    else if head.length ≠ LOG_EVENT_MINIMAL_HEADER_LEN then
      (-1, { r with m_err := BINLOG_ERR_INCOMPLETE })
    else
      let binlogSize := korr 4 head EVENT_LEN_OFFSET
      if binlogSize < LOG_EVENT_MINIMAL_HEADER_LEN then
        (-1, { r with m_err := BINLOG_ERR_BAD_LENGTH })
      else (r.reserve binlogSize).readBody binlogSize

/-- `m_readBuf[EVENT_TYPE_OFFSET]`. -/
def eventType : UInt8 := r.m_readBuf.getD EVENT_TYPE_OFFSET 0

def readFormatEvent : Int × ReadBinlogFile :=
  let logEventOffset := r.m_logEventOffset
  let r := (r._setPosition 4).2
  let (ret, r) := r.readBinlog
  if ret ≠ 0 ∨ r.eventType ≠ FORMAT_DESCRIPTION_EVENT then (-1, r)
  else
    let eventLen := korr 4 r.m_readBuf EVENT_LEN_OFFSET
    let logPos := korr 4 r.m_readBuf LOG_POS_OFFSET
    let r :=
      { r with
        m_crc := r.m_readBuf.getD
          (eventLen - BINLOG_CHECKSUM_LEN - BINLOG_CHECKSUM_ALG_DESC_LEN) 0
        m_serverId := korr 4 r.m_readBuf SERVER_ID_OFFSET }
    if 0 ≠ logPos ∧ (eventLen + 4) % 2 ^ 32 ≠ logPos then (-1, r)
    else if logEventOffset > 4 then (0, (r._setPosition logEventOffset).2)
    else (0, r)

/-- The bytes of the event that `fakeRotateEvent` makes up, without its checksum. -/
def fakeRotateBytes : List UInt8 :=
  let ident := fileNameOf r.m_filePath
  let event_len := ident.length + LOG_EVENT_HEADER_LEN + ROTATE_HEADER_LEN +
    if r.m_crc ≠ BINLOG_CHECKSUM_ALG_OFF then BINLOG_CHECKSUM_LEN else 0
  LE.bytes 4 0 ++ [ROTATE_EVENT] ++ LE.bytes 4 r.m_serverId ++ LE.bytes 4 event_len ++
    LE.bytes 4 0 ++ LE.bytes 2 LOG_EVENT_ARTIFICIAL_F ++ LE.bytes 8 r.m_logEventOffset ++ ident

/-- `fakeRotateEvent`.  `crc32` is the checksum of zlib.  `none` when the path is empty; the
caller's variables are then left alone. -/
def fakeRotateEvent (crc32 : List UInt8 → Nat) : Option (List UInt8) :=
  if r.m_filePath = [] then none
  else if r.m_crc ≠ BINLOG_CHECKSUM_ALG_OFF then
    some (r.fakeRotateBytes ++ LE.bytes 4 (crc32 r.fakeRotateBytes))
  else some r.fakeRotateBytes

/-- What `readBinlogEvent` does with a rotate event.  `none` when the event is too short for the
name of the next file: the length of the string underflows. -/
def endAtRotate (size : Nat) : Option ReadBinlogFile :=
  let head := LOG_EVENT_HEADER_LEN + ROTATE_HEADER_LEN
  let tail := if r.m_crc ≠ 0 then BINLOG_CHECKSUM_LEN else 0
  if size < head + tail then none
  else some
    { r with
      m_err := BINLOG_ERR_EOF
      m_status := .BINLOG_READ_END
      m_nextFile := r.m_readBuf.slice head (size - (head + tail))
      m_nextBeginPos := korr 8 r.m_readBuf LOG_EVENT_HEADER_LEN }

/-- What `readBinlogEvent` does with a stop event: at the end of the file the next file is guessed
from the name of this one, elsewhere the handle is set back. -/
def endAtStop : Int × ReadBinlogFile :=
  if r.m_logEventOffset = r.m_fileFD.seekEnd.pos then
    match nextName ((fileNameOf r.m_filePath).take 255).reverse with
    | none => (-1, { r with m_err := BINLOG_ERR_BAD_FILENAME, m_status := .BINLOG_READ_END })
    | some name =>
      (0, { r with
            m_err := BINLOG_ERR_EOF
            m_status := .BINLOG_READ_END
            m_nextFile := name.reverse
            m_nextBeginPos := 4 })
  else (0, { r with m_fileFD := r.m_fileFD.seekSet r.m_logEventOffset })

/-- The end of `readBinlogEvent`, once the event is in the buffer. -/
def deliver : Option (Int × Option (List UInt8) × ReadBinlogFile) :=
  let size := korr 4 r.m_readBuf EVENT_LEN_OFFSET
  let binlog := r.m_readBuf.take size
  if r.eventType = ROTATE_EVENT then (r.endAtRotate size).map fun r => (0, some binlog, r)
  else if r.eventType = STOP_EVENT then
    let (ret, r) := r.endAtStop
    some (ret, if ret = 0 then some binlog else none, r)
  else some (0, some binlog, r)

/-- `readBinlogEvent`: the return value, the `size` bytes at `binlog` and the reader afterwards. -/
def readBinlogEvent (crc32 : List UInt8 → Nat) :
    Option (Int × Option (List UInt8) × ReadBinlogFile) :=
  if r.m_err ≠ 0 then some (-1, none, r)
  else
    match r.m_status with
    | .BINLOG_READ_FAKE_ROTATE =>
      let binlog := r.fakeRotateEvent crc32
      some (0, binlog,
        { r with m_readBuf := binlog.getD r.m_readBuf, m_status := .BINLOG_READ_FORMAT })
    | .BINLOG_READ_FORMAT =>
      let (ret, r) := r.readFormatEvent
      if ret ≠ 0 then some (-1, none, r)
      else deliver { r with m_status := .BINLOG_READ_DATA }
    | _ =>
      let (ret, r) := r.readBinlog
      if ret ≠ 0 then some (-1, none, r) else r.deliver

/-! ## Calls of the reader -/

/-- The public calls that change a reader, `setFile` with what its path names at that time. -/
inductive Call where
  | setFile (filePath : List UInt8) (file : Except Nat (List UInt8)) (offset : Nat)
  | setPosition (offset : Nat)
  | readBinlogEvent

/-- One call.  `none` when it ends in an exception. -/
def step (crc32 : List UInt8 → Nat) : Call → Option ReadBinlogFile
  | .setFile filePath file offset => some (r.setFile filePath file offset).2
  | .setPosition offset => some (r.setPosition offset).2
  | .readBinlogEvent => (r.readBinlogEvent crc32).map (·.2.2)

/-- One call after the other. -/
def run (crc32 : List UInt8 → Nat) (calls : List Call) : Option ReadBinlogFile :=
  calls.foldlM (fun r c => r.step crc32 c) r

end ReadBinlogFile

end DBStream.Native.DATA_SOURCE
