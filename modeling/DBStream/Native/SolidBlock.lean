import DBStream.Native.AppendingBlock

/-!
# The solid block

`appendingBlock::toSolidBlock` and the lookup by record id of
`database/solidBlock.{h,cpp}`.

The tables of the first page (`m_tableInfo`, `m_recordInfos`,
`m_recordIdOrderyTable`, `pageOffsets`, `pageInfo`) are pointers into its bytes; here
they are lists, and the bytes are made from them in `Native/SolidFile`.  The page is
cleared before the tables are filled, so what the loop does not write is zero.
-/

namespace DBStream.Native

variable {I : IndexImpl}

structure TableDataInfo where
  tableId : Nat := 0
  recordCount : Nat := 0
  recordIdsOffset : Nat := 0
  pageCount : Nat := 0
  firstPageId : Nat := 0
  deriving DecidableEq

structure RecordGeneralInfo where
  recordType : Nat := 0
  tableIndex : Nat := 0
  offset : Nat := 0
  timestamp : Nat := 0
  logOffset : Nat := 0
  deriving DecidableEq

/-- The part of `page` in front of `_ref`, which is kept in `pageInfo`. -/
structure PageInfo where
  pageId : Nat
  pageUsedSize : Nat
  pageSize : Nat
  crc : Nat
  lru : Nat
  deriving DecidableEq

/-- A page of a solid block; `pageData` is null while the page is not loaded. -/
structure SolidPage where
  info : PageInfo
  pageData : Option (List UInt8)
  deriving DecidableEq

/-- A page with its bytes. -/
def SolidPage.ofPage (p : Page) : SolidPage where
  info := {
    pageId := p.pageId
    pageUsedSize := p.pageUsedSize
    pageSize := p.pageSize
    crc := p.crc
    lru := p.lru }
  pageData := some p.pageData

/-- The part of `block` that is written to the file, `m_version` to `m_crc`. -/
structure BlockHead where
  m_version : Nat
  m_flag : BlockFlag
  m_blockID : Nat
  m_prevBlockID : Nat
  m_tableID : Nat
  m_minTime : Nat
  m_maxTime : Nat
  m_minLogOffset : Nat
  m_maxLogOffset : Nat
  m_minRecordId : Nat
  m_recordCount : Nat
  m_minTxnId : Nat
  m_maxTxnId : Nat
  m_tableCount : Nat
  m_pageCount : Nat
  m_solidBlockHeadPageRawSize : Nat
  m_solidBlockHeadPageSize : Nat
  m_rawSize : Nat
  m_fileSize : Nat
  m_crc : Nat
  deriving DecidableEq

structure SolidBlock where
  head : BlockHead
  m_tableInfo : List TableDataInfo
  m_recordInfos : List RecordGeneralInfo
  m_recordIdOrderyTable : List Nat
  pageOffsets : List Nat
  pageInfo : List PageInfo
  pages : List SolidPage
  deriving DecidableEq

/-! ## Conversion -/

/-- The state of the loop in `toSolidBlock`: the pages laid out, the new ids of the data pages,
    the record infos, the record numbers in table order and the table infos. -/
structure Conversion where
  pages : List Page
  pageMap : Nat → Option Nat
  recordInfos : List RecordGeneralInfo
  recordIdOrderyTable : List Nat
  tableInfo : List TableDataInfo

/-- The indexes of a table with the keys they are for. -/
def TableData.indexes (t : TableData I) : List (I.KeyMeta × I.Index) :=
  match t.tableMeta with
  | none => []
  | some m => m.m_primaryKey.toList.zip t.primaryKey.toList ++ m.m_uniqueKeys.zip t.uniqueKeys

def createSolidIndexPage (key : I.KeyMeta) (index : I.Index) : Exec Page :=
  match I.solidPage key index with
  | none => .error .abort
  | some data => .ok { Page.alloc data.length with pageData := data }

namespace AppendingBlock

variable (b : AppendingBlock I)

/-- `block->pages[pageId] = p; p->pageId = pageId; pageId++`. -/
def addPage (c : Conversion) (p : Page) : Exec Conversion :=
  if c.pages.length < b.m_pageCount then
    .ok { c with pages := c.pages ++ [{ p with pageId := c.pages.length }] }
  else .error .pageOverflow

/-- The page of an index. -/
def addIndexPage (c : Conversion) (x : I.KeyMeta × I.Index) : Exec Conversion := do
  let p ← createSolidIndexPage x.1 x.2
  b.addPage c p

/-- A data page: its old id is mapped to the new one. -/
def addDataPage (c : Conversion) (slot : Nat) : Exec Conversion := do
  let p ← deref (b.m_pages slot)
  if p.pageId < b.m_pageCount then
    b.addPage { c with pageMap := Function.update c.pageMap p.pageId (some c.pages.length) } p
  else throw .outOfBounds

/-- The info of record `rid` of the table with index `tableIdx`. -/
def addRecordInfo (tableIdx : Nat) (c : Conversion) (rid : Nat) : Exec Conversion :=
  match b.m_recordIDs rid with
  | none => .error .uninitialized
  | some currentOffset =>
    match c.pageMap (RecordPosition.pageId currentOffset) with
    | none => .error .uninitialized
    | some page => do
      let d ← b.getRecordByIdx rid
      if rid < c.recordInfos.length ∧ c.recordIdOrderyTable.length < b.m_recordCount then
        return { c with
          recordInfos := c.recordInfos.set rid {
            recordType := RecordHead.type d
            tableIndex := tableIdx
            offset := RecordPosition.set page (RecordPosition.offsetInPage currentOffset)
            timestamp := RecordHead.timestamp d
            logOffset := RecordHead.logOffset d }
          recordIdOrderyTable := c.recordIdOrderyTable ++ [rid] }
      else throw .outOfBounds

/-- The entry of a table, with the page id and the offset its pages and records start at. -/
def tableInfoOf (t : TableData I) (firstPageId recordIdsOffset : Nat) : TableDataInfo where
  tableId := tableKey t.tableMeta
  recordCount := t.recordIds.length
  -- a table without records keeps the zero
  recordIdsOffset := if t.recordIds.isEmpty then 0 else recordIdsOffset
  firstPageId := firstPageId

/-- One turn of the loop. -/
def convertTable (c : Conversion) (e : Nat × TableData I) : Exec Conversion := do
  let c₁ ← e.2.indexes.foldlM b.addIndexPage c
  let c₂ ← e.2.pages.foldlM b.addDataPage c₁
  let c₃ ← e.2.recordIds.foldlM (b.addRecordInfo c.tableInfo.length) c₂
  return { c₃ with
    tableInfo := c₃.tableInfo ++
      [tableInfoOf e.2 c.pages.length c.recordIdOrderyTable.length] }

/-- The head of the solid block: the fields of the appending block, those it does not use being
    zero since the constructor of `block`. -/
def solidHead : BlockHead where
  m_version := 1
  m_flag := { b.m_flag with appending := false, finished := true, solid := true }
  m_blockID := b.m_blockID
  m_prevBlockID := b.m_prevBlockID
  m_tableID := 0
  m_minTime := b.m_minTime
  m_maxTime := b.m_maxTime
  m_minLogOffset := b.m_minLogOffset
  m_maxLogOffset := b.m_maxLogOffset
  m_minRecordId := b.m_minRecordId
  m_recordCount := b.m_recordCount
  m_minTxnId := 0
  m_maxTxnId := 0
  m_tableCount := b.m_tableCount
  m_pageCount := b.m_pageCount
  m_solidBlockHeadPageRawSize := 0
  m_solidBlockHeadPageSize := 0
  m_rawSize := 0
  m_fileSize := 0
  m_crc := 0

/-- The solid block made of what the loop has collected. -/
def solidOf (c : Conversion) : SolidBlock where
  head := b.solidHead
  m_tableInfo := c.tableInfo
  m_recordInfos := c.recordInfos
  m_recordIdOrderyTable := c.recordIdOrderyTable ++
    List.replicate (b.m_recordCount - c.recordIdOrderyTable.length) 0
  pageOffsets := List.replicate (b.m_pageCount + 1) 0
  pageInfo := c.pages.map fun p => (SolidPage.ofPage p).info
  pages := c.pages.map SolidPage.ofPage

def toSolidBlock : Exec SolidBlock :=
  if b.m_tableCount = b.m_tableDatas.size then do
    let c ← b.m_tableDatas.entries.foldlM b.convertTable {
      pages := []
      pageMap := fun _ => none
      recordInfos := List.replicate b.m_recordCount {}
      recordIdOrderyTable := []
      tableInfo := [] }
    if c.pages.length = b.m_pageCount then return b.solidOf c
    else throw .assertFailed
  else throw .assertFailed

/-- The loop of `toSolidBlock` alone. -/
def convertTables : Exec Conversion :=
  b.m_tableDatas.entries.foldlM b.convertTable {
    pages := []
    pageMap := fun _ => none
    recordInfos := List.replicate b.m_recordCount {}
    recordIdOrderyTable := []
    tableInfo := [] }

/-- The block after `toSolidBlock`.  It shares its data pages with the solid block, so
    `pageMap[p->pageId] = pageId; p->pageId = pageId` has changed the ids of its own pages. -/
def afterSolid : Exec (AppendingBlock I) := do
  let c ← b.convertTables
  return { b with
    m_pages := fun slot => (b.m_pages slot).map fun p =>
      { p with pageId := (c.pageMap p.pageId).getD p.pageId } }

end AppendingBlock

/-! ## Lookup by record id -/

namespace SolidBlock

/-- `getPage`: the bytes of a page; `load` reads a page that is not in memory. -/
def getPage (load : SolidBlock → Nat → Exec (Option (List UInt8))) (b : SolidBlock) (pageId : Nat) :
    Exec (Option (List UInt8)) :=
  match b.pages[pageId]? with
  | none => .error .outOfBounds
  | some p =>
    match p.pageData with
    | some data => .ok (some data)
    | none => load b pageId

def getRecordByInnerId (load : SolidBlock → Nat → Exec (Option (List UInt8))) (b : SolidBlock)
    (recordId : Nat) : Exec (Option (List UInt8)) :=
  if b.head.m_recordCount ≤ recordId then .ok none
  else
    match b.m_recordInfos[recordId]? with
    | none => .error .outOfBounds
    | some info => do
      match ← b.getPage load (RecordPosition.pageId info.offset % 2 ^ 16) with
      | none => return none
      | some data =>
        let d ← recordAt data (RecordPosition.offsetInPage info.offset)
        return some d

/-- `getRecord(uint64_t)`: the number handed on is a `uint32_t`. -/
def getRecord (load : SolidBlock → Nat → Exec (Option (List UInt8))) (b : SolidBlock)
    (recordId : Nat) : Exec (Option (List UInt8)) :=
  b.getRecordByInnerId load
    (((recordId : Int) - b.head.m_minRecordId - 1) % (2 ^ 32 : Nat)).toNat

end SolidBlock

end DBStream.Native
