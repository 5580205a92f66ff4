import DBStream.Native.Redo

/-!
# The appending block

`database/appendingBlock.h` and the write path of `database/appendingBlock.cpp`:
the constructor, `getTableData`, `allocMemForRecord`, `copyRecord`, `append` and
the two `getRecord` functions.

A `page*` is the number of its slot in `m_pages`: a slot is filled once, by the
allocation of the page.  `meta->userData` points to the table data of the block
that is being written, so `getTableData(meta)` is a lookup by table id.  The
condition variable that readers wait on is left out.
-/

namespace DBStream.Native

variable {I : IndexImpl}

def maxRecordInBlock : Nat := 1024 * 128

/-- `DEFAULT_PAGE_SIZE`, and the default of `tableData::init`. -/
def DEFAULT_PAGE_SIZE : Nat := 512 * 1024

structure TableData (I : IndexImpl) where
  tableMeta : Option (TableMeta I)
  primaryKey : Option I.Index
  uniqueKeys : List I.Index
  recordIds : List Nat
  pages : List Nat
  current : Option Nat
  pageSize : Nat

namespace TableData

/-- The number of indexes, `0` without a table meta. -/
def indexCount (t : TableData I) : Nat :=
  match t.tableMeta with
  | none => 0
  | some m => m.indexCount

/-- `tableData::init` with the meta of a table. -/
def init (m : TableMeta I) : Exec (TableData I) := do
  let primaryKey ← m.m_primaryKey.mapM I.create
  let uniqueKeys ← m.m_uniqueKeys.mapM I.create
  return {
    tableMeta := some m
    primaryKey := primaryKey
    uniqueKeys := uniqueKeys
    recordIds := []
    pages := []
    current := none
    pageSize := DEFAULT_PAGE_SIZE }

/-- `m_defaultData` as the constructor of the block makes it. -/
def default : TableData I where
  tableMeta := none
  primaryKey := none
  uniqueKeys := []
  recordIds := []
  pages := []
  current := none
  pageSize := 4096

/-- The page at `slot` becomes the page the table is written to. -/
def pushPage (slot : Nat) (t : TableData I) : TableData I :=
  { t with current := some slot, pages := t.pages ++ [slot] }

/-- The index part of `append`: the record's number is put on the table's list and under the
    record's keys. -/
def addRecord (t : TableData I) (data : List UInt8) (n : Nat) : Exec (TableData I) := do
  let primaryKey ← t.primaryKey.mapM fun index => I.append index data n
  let uniqueKeys ← t.uniqueKeys.mapM fun index => I.append index data n
  return { t with
    recordIds := t.recordIds ++ [n]
    primaryKey := primaryKey
    uniqueKeys := uniqueKeys }

end TableData

/-- The key of a table in `m_tableDatas`; the default table is under `0`. -/
def tableKey : Option (TableMeta I) → Nat
  | none => 0
  | some m => m.m_id

/-- `appendingBlock`, with the part of `block` that it uses. -/
structure AppendingBlock (I : IndexImpl) where
  m_blockID : Nat
  m_prevBlockID : Nat
  m_flag : BlockFlag
  m_minTime : Nat
  m_maxTime : Nat
  m_minLogOffset : Nat
  m_maxLogOffset : Nat
  m_minRecordId : Nat
  m_recordCount : Nat
  m_tableCount : Nat
  m_pageCount : Nat
  m_recordIDs : Nat → Option Nat
  m_size : Nat
  m_maxSize : Nat
  m_committedRecordID : Nat
  m_tableDatas : SortedMap Nat (TableData I)
  m_pages : Nat → Option Page
  m_maxPageCount : Nat
  m_txnId : Nat
  redo : RedoState

namespace AppendingBlock

/-- The constructor. -/
def create (blockId : Nat) (flag : BlockFlag) (bufSize : Nat)
    (redoFlushDataSize redoFlushPeriod : Int) (startID : Nat) : AppendingBlock I where
  m_blockID := blockId
  m_prevBlockID := 0
  m_flag := flag
  m_minTime := 0
  m_maxTime := 0
  m_minLogOffset := 0
  m_maxLogOffset := 0
  m_minRecordId := startID
  m_recordCount := 0
  m_tableCount := 1
  m_pageCount := 0
  m_recordIDs := fun _ => none
  m_size := 0
  m_maxSize := bufSize
  m_committedRecordID := 0
  m_tableDatas := SortedMap.singleton 0 TableData.default
  m_pages := fun _ => none
  -- `m_maxPageCount` is a `uint16_t`, and the divisor really is `32 * 1204`
  m_maxPageCount := bufSize / (32 * 1204) % 2 ^ 16
  m_txnId := 0
  redo := {
    m_redoFd := 0
    m_redoUnflushDataSize := 0
    m_redoFlushDataSize := redoFlushDataSize
    m_redoFlushPeriod := redoFlushPeriod
    m_lastFLushTime := 0
    openFd := none
    file := none }

variable (b : AppendingBlock I)

/-- `m_flag |= BLOCK_FLAG_FINISHED`. -/
def finish : AppendingBlock I := { b with m_flag := { b.m_flag with finished := true } }

/-- `getTableData(META::tableMeta*)`: the table of a meta is registered when it is first asked
    for. -/
def getTableData : Option (TableMeta I) → Exec (AppendingBlock I)
  | none => .ok b
  | some m =>
    match b.m_tableDatas.find m.m_id with
    | some _ => .ok b
    | none => do
      let table ← TableData.init m
      return { b with
        m_tableDatas := b.m_tableDatas.insert m.m_id table
        m_tableCount := b.m_tableCount + 1 }

/-- The number of page ids a new page of the table takes: its first page also takes one for each
    index. -/
def pagesTaken (t : TableData I) : Nat :=
  match t.current with
  | none => 1 + t.indexCount
  | some _ => 1

/-- A new page for the table under `key`. -/
def newPage (key psize taken : Nat) : AppendingBlock I :=
  let slot := b.m_pageCount + taken - 1
  { b with
    m_pageCount := b.m_pageCount + taken
    m_size := b.m_size + psize
    m_pages := Function.update b.m_pages slot (some { Page.alloc psize with pageId := slot })
    m_tableDatas := b.m_tableDatas.modify key (TableData.pushPage slot) }

/-- Whether the page a table is written to has room for `size` more bytes. -/
def hasRoom (t : TableData I) (size : Nat) : Exec Bool :=
  match t.current with
  | none => .ok false
  | some slot => do
    let current ← deref (b.m_pages slot)
    return current.pageUsedSize + size ≤ current.pageSize

/-- `allocMemForRecord(tableData*, ...)`.  The address returned is the end of the used part of the
    table's current page. -/
def allocMemForRecord (key size : Nat) : Exec (AppendingBlockStaus × AppendingBlock I) :=
  if maxRecordInBlock ≤ b.m_recordCount then .ok (.B_FULL, b.finish)
  else do
    let t ← deref (b.m_tableDatas.find key)
    if ← b.hasRoom t size then return (.B_OK, b)
    else
      let psize := max size t.pageSize
      if b.m_maxPageCount ≤ b.m_pageCount + pagesTaken t ∨ b.m_maxSize ≤ b.m_size + psize then
        return (.B_FULL, b.finish)
      else return (.B_OK, b.newPage key psize (pagesTaken t))

/-- `allocMemForRecord(META::tableMeta*, ...)`. -/
def allocMemForTable (m : Option (TableMeta I)) (size : Nat) :
    Exec (AppendingBlockStaus × AppendingBlock I) := do
  let b ← b.getTableData m
  b.allocMemForRecord (tableKey m) size

/-- The end of the used part of the page a table is written to. -/
def tail (key : Nat) : Option MemAddr := do
  let t ← b.m_tableDatas.find key
  let slot ← t.current
  let current ← b.m_pages slot
  return { block := b.m_blockID, slot := slot, offset := current.pageUsedSize }

/-- The end of `copyRecord`: the record at the tail of the table's page gets its id and its
    position is noted.  Writing behind the page or behind `m_recordIDs` is a fault. -/
def placeRecord (key : Nat) (r : Record) : Exec (AppendingBlock I) := do
  let t ← deref (b.m_tableDatas.find key)
  let slot ← deref t.current
  let current ← deref (b.m_pages slot)
  if b.m_recordCount < maxRecordInBlock ∧
      current.pageUsedSize + r.data.length ≤ current.pageSize then
    return { b with
      m_pages := Function.update b.m_pages slot
        (some (current.write (r.stamped (b.m_minRecordId + b.m_recordCount))))
      m_recordIDs := Function.update b.m_recordIDs b.m_recordCount
        (some (RecordPosition.set current.pageId current.pageUsedSize)) }
  else throw .outOfBounds

/-- What `copyRecord` does with the copy it made in the page: row changes are loaded with their
    meta, DDL records without, other kinds abort. -/
def loadCopy (m : Option (TableMeta I)) (r : Record) : Exec Unit :=
  if RecordHead.isDML r.data then do
    let _ ← deref m
    return ()
  else if RecordHead.type r.data = RecordType.R_DDL.code then return ()
  else throw .abort

def copyRecord (Γ : MetaDataCollection I) (r : Record) :
    Exec (AppendingBlockStaus × AppendingBlock I) := do
  let m := Γ.metaOf r.data
  let b ← b.getTableData m
  if r.addr.isSome ∧ r.addr = b.tail (tableKey m) then
    return (.B_OK, ← b.placeRecord (tableKey m) r)
  else
    let (s, b) ← b.allocMemForRecord (tableKey m) r.data.length
    if s = .B_OK then
      loadCopy m r
      return (.B_OK, ← b.placeRecord (tableKey m) r)
    else return (s, b)

/-- The redo part of `append`: the status and the redo state it leaves. -/
def writeRedo (r : Record) (io : RedoIo) : AppendingBlockStaus × RedoState :=
  if b.m_flag.hasRedo then
    b.redo.writeRedo b.m_minLogOffset io (r.stamped (b.m_minRecordId + b.m_recordCount))
  else (.B_OK, b.redo)

/-- The block with another redo state. -/
def setRedo (redo : RedoState) : AppendingBlock I := { b with redo := redo }

/-- The index part of `append`. -/
def indexRecord (Γ : MetaDataCollection I) (r : Record) : Exec (AppendingBlock I) :=
  if RecordHead.isDML r.data then do
    let m ← deref (Γ.metaOf r.data)
    let t ← deref (b.m_tableDatas.find m.m_id)
    let t ← t.addRecord (r.stamped (b.m_minRecordId + b.m_recordCount)) b.m_recordCount
    return { b with m_tableDatas := b.m_tableDatas.modify m.m_id fun _ => t }
  else return b

/-- The bookkeeping at the end of `append`. -/
def acceptRecord (r : Record) : AppendingBlock I :=
  let d := r.data
  { b with
    m_maxLogOffset := RecordHead.logOffset d
    m_minLogOffset :=
      if b.m_minLogOffset = 0 then RecordHead.logOffset d else b.m_minLogOffset
    m_minTime := if b.m_minTime = 0 then RecordHead.timestamp d else b.m_minTime
    m_maxTime := max b.m_maxTime (RecordHead.timestamp d)
    m_recordCount := b.m_recordCount + 1
    m_committedRecordID :=
      if b.m_txnId < RecordHead.txnId d ∨ RecordHead.type d = RecordType.R_DDL.code
      then b.m_recordCount + 1 else b.m_committedRecordID
    m_txnId := RecordHead.txnId d }

def append (Γ : MetaDataCollection I) (r : Record) (io : RedoIo) :
    Exec (AppendingBlockStaus × AppendingBlock I) :=
  if RecordHead.logOffset r.data < b.m_maxLogOffset then .ok (.B_ILLEGAL, b)
  else do
    let (s, b) ← b.copyRecord Γ r
    if s = .B_OK then
      let (s, redo) := b.writeRedo r io
      let b := b.setRedo redo
      if s = .B_OK then
        let b ← b.indexRecord Γ r
        return (.B_OK, b.acceptRecord r)
      else return (s, b)
    else return (s, b)

/-- `getRecordByIdx`, up to the end of the record found there. -/
def getRecordByIdx (recordIdx : Nat) : Exec (List UInt8) :=
  match b.m_recordIDs recordIdx with
  | none => .error .uninitialized
  | some offset => do
    let p ← deref (b.m_pages (RecordPosition.pageId offset))
    recordAt p.pageData (RecordPosition.offsetInPage offset)

/-- `getRecord(uint64_t)`, up to the end of the record found there.  For an id below those of the
    block the difference wraps around, to a place outside of `m_recordIDs`. -/
def getRecord (recordId : Nat) : Exec (List UInt8) :=
  if recordId < b.m_minRecordId then .error .outOfBounds
  else
    match b.m_recordIDs (recordId - b.m_minRecordId) with
    | none => .error .uninitialized
    | some offset => do
      let p ← deref (b.m_pages (RecordPosition.pageId offset))
      if p.pageId = RecordPosition.pageId offset then
        recordAt p.pageData (RecordPosition.offsetInPage offset)
      else throw .assertFailed

end AppendingBlock

end DBStream.Native
