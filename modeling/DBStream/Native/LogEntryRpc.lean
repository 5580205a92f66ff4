import DBStream.ForStd.Bytes

/-!
# Log entries

The packed structures of `cluster/rpc.h` that the cluster log stores, its `index` of
`cluster/clusterLogFile.h`, and the part of `logConfig` that it uses.
-/

namespace DBStream.Native.CLUSTER

structure LogIndexInfo where
  term : Nat
  logIndex : Nat
  deriving DecidableEq

namespace LogIndexInfo

/-- `operator<`. -/
instance : LT LogIndexInfo :=
  ⟨fun a b => a.term < b.term ∨ a.term = b.term ∧ a.logIndex < b.logIndex⟩

/-- `operator<=`. -/
instance : LE LogIndexInfo :=
  ⟨fun a b => a.term < b.term ∨ a.term = b.term ∧ a.logIndex ≤ b.logIndex⟩

theorem lt_def {a b : LogIndexInfo} :
    a < b ↔ a.term < b.term ∨ a.term = b.term ∧ a.logIndex < b.logIndex := Iff.rfl

theorem le_def {a b : LogIndexInfo} :
    a ≤ b ↔ a.term < b.term ∨ a.term = b.term ∧ a.logIndex ≤ b.logIndex := Iff.rfl

instance (a b : LogIndexInfo) : Decidable (a < b) := decidable_of_iff _ lt_def.symm

instance (a b : LogIndexInfo) : Decidable (a ≤ b) := decidable_of_iff _ le_def.symm

instance : LinearOrder LogIndexInfo where
  le_refl a := by
    rw [le_def]
    omega
  le_trans a b c := by
    simp only [le_def]
    omega
  le_antisymm a b := by
    obtain ⟨t, i⟩ := a
    obtain ⟨t', i'⟩ := b
    simp only [le_def, LogIndexInfo.mk.injEq]
    omega
  le_total a b := by
    simp only [le_def]
    omega
  lt_iff_le_not_ge a b := by
    simp only [lt_def, le_def]
    omega
  toDecidableLE := inferInstance
  toDecidableLT := inferInstance
  toDecidableEq := inferInstance

def invalid (i : LogIndexInfo) : Bool := i.term = 0

/-- The 16 bytes of an index. -/
def bytes (i : LogIndexInfo) : List UInt8 := LE.bytes 8 i.term ++ LE.bytes 8 i.logIndex

/-- The index that 16 bytes are. -/
def ofBytes (d : List UInt8) : LogIndexInfo where
  term := LE.nat (d.take 8)
  logIndex := LE.nat ((d.drop 8).take 8)

/-- The index is one of two `uint64_t`. -/
structure Fits (i : LogIndexInfo) : Prop where
  term_lt : i.term < 2 ^ 64
  logIndex_lt : i.logIndex < 2 ^ 64

@[simp] theorem length_bytes (i : LogIndexInfo) : i.bytes.length = 16 := by simp [bytes]

theorem ofBytes_bytes {i : LogIndexInfo} (h : i.Fits) (rest : List UInt8) :
    ofBytes (i.bytes ++ rest) = i := by
  have hterm : (i.bytes ++ rest).take 8 = LE.bytes 8 i.term := by
    rw [bytes, List.append_assoc]
    exact List.take_left' (LE.length_bytes _ _)
  have hindex : ((i.bytes ++ rest).drop 8).take 8 = LE.bytes 8 i.logIndex := by
    rw [bytes, List.append_assoc, List.drop_left' (LE.length_bytes _ _)]
    exact List.take_left' (LE.length_bytes _ _)
  rw [ofBytes, hterm, hindex, LE.nat_bytes_of_lt h.term_lt, LE.nat_bytes_of_lt h.logIndex_lt]

end LogIndexInfo

def VERSION : UInt8 := 1

def endOfFile : UInt8 := 10

/-- `sizeof(raftRpcHead)`. -/
def raftRpcHeadSize : Nat := 6

/-- `sizeof(logEntryRpcBase)`. -/
def logEntryRpcBaseSize : Nat := 46

structure RaftRpcHead where
  size : Nat
  recordType : UInt8
  version : UInt8

/-- The bytes of a head. -/
def RaftRpcHead.bytes (h : RaftRpcHead) : List UInt8 := LE.bytes 4 h.size ++ [h.recordType, h.version]

/-- A `logEntryRpcBase` and the bytes behind it that belong to the entry. -/
structure LogEntryRpcBase where
  recordType : UInt8
  version : UInt8
  logIndex : LogIndexInfo
  prevRecordLogIndex : LogIndexInfo
  leaderCommitIndex : Nat
  body : List UInt8
  deriving DecidableEq

namespace LogEntryRpcBase

def size (e : LogEntryRpcBase) : Nat := logEntryRpcBaseSize + e.body.length

/-- The head of an entry. -/
def head (e : LogEntryRpcBase) : RaftRpcHead := ⟨e.size, e.recordType, e.version⟩

/-- The bytes of an entry. -/
def bytes (e : LogEntryRpcBase) : List UInt8 :=
  e.head.bytes ++ e.logIndex.bytes ++ e.prevRecordLogIndex.bytes ++ LE.bytes 8 e.leaderCommitIndex ++
    e.body

theorem length_bytes (e : LogEntryRpcBase) : e.bytes.length = e.size := by
  simp [bytes, head, RaftRpcHead.bytes, size, logEntryRpcBaseSize]
  omega

end LogEntryRpcBase

/-! ## The fields of an entry at a place of a buffer -/

/-- `size` of the head at `off`. -/
def headSize (d : List UInt8) (off : Nat) : Nat := LE.nat (d.slice off 4)

/-- `recordType` of the head at `off`. -/
def headRecordType (d : List UInt8) (off : Nat) : UInt8 := d.getD (off + 4) 0

/-- `logIndex` of the entry at `off`. -/
def entryLogIndex (d : List UInt8) (off : Nat) : LogIndexInfo := .ofBytes (d.slice (off + 6) 16)

structure Index where
  offset : Nat
  logIndex : LogIndexInfo
  deriving DecidableEq

/-- `sizeof(index)`. -/
def indexSize : Nat := 20

namespace Index

/-- The bytes of an index. -/
def bytes (i : Index) : List UInt8 := LE.bytes 4 i.offset ++ i.logIndex.bytes

/-- The index that 20 bytes are. -/
def ofBytes (d : List UInt8) : Index where
  offset := LE.nat (d.take 4)
  logIndex := .ofBytes (d.drop 4)

@[simp] theorem length_bytes (i : Index) : i.bytes.length = indexSize := by simp [bytes, indexSize]

end Index

/-- The part of `logConfig` that a log file uses. -/
structure LogConfig where
  m_defaultBlockSize : Nat
  m_defaultLogFileSize : Nat

/-- The configuration that the constructor makes: `DEFAULT_BLOCK_SIZE` and `DEFAULT_LOG_FILE_SIZE`. -/
def LogConfig.new : LogConfig := ⟨128 * 1024, 512 * 1024 * 1024⟩

/-- `m_maxBlockCount`. -/
def LogConfig.maxBlockCount (cfg : LogConfig) : Nat := cfg.m_defaultLogFileSize / cfg.m_defaultBlockSize

/-- The codes of the errors of the cluster log. -/
inductive ErrorCode where
  | full
  | rollback
  | prevNotMatch
  | rollbackCommited
  | rollbackTooEarlier
  | logIndexNotFound
  | ioError
  | missingLogFile
  | emptyLogFile
  | endOfFile
  | illegalLogEntry
  deriving DecidableEq

end DBStream.Native.CLUSTER
