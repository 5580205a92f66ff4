import DBStream.Native.BinlogFile
import DBStream.Native.DMLRecord

/-!
# Row events

The rows events of MySQL in `dataSource/mysqlDataSource/BinlogEventParser.cpp`: the header of the
event, one image of a row and the loops over the rows.

A pointer into the event is the memory from there on, the bytes behind the event included; a pointer
or a read that leaves this memory is a fault.  A record is what is set in it: one call for each
column of the new values and, of an update, one for each column of the old values (`ParsedRow`).
`m_tableMap` is what the last table map event has left there.  Texts of errors are left out.
-/

namespace DBStream.Native.DATA_SOURCE

open Meta DMLRecord

/-! ## Memory -/

/-- `data += n`. -/
def advance (n : Nat) (data : List UInt8) : Exec (List UInt8) :=
  if n ≤ data.length then .ok (data.drop n) else .error .outOfBounds

/-- `uint2korr` and the like: a word of `w` bytes. -/
def ukorr (w : Nat) (data : List UInt8) : Exec Nat :=
  if w ≤ data.length then .ok (LE.nat (data.take w)) else .error .outOfBounds

theorem advance_append {n : Nat} {l : List UInt8} (h : n = l.length) (rest : List UInt8) :
    advance n (l ++ rest) = .ok rest := by
  subst h
  simp [advance]

theorem ukorr_append {w : Nat} {l : List UInt8} (h : w = l.length) (rest : List UInt8) :
    ukorr w (l ++ rest) = .ok (LE.nat l) := by
  subst h
  simp [ukorr]

theorem ukorr_bytes {w n : Nat} (h : n < 256 ^ w) (rest : List UInt8) :
    ukorr w (LE.bytes w n ++ rest) = .ok n := by
  rw [ukorr_append (LE.length_bytes w n).symm, LE.nat_bytes_of_lt h]

/-- `TEST_BITMAP` and `NULL_BIT`. -/
def bitAt (bitmap : List UInt8) (idx : Nat) : Exec Bool := do
  return (← tableAt bitmap (idx / 8)).toNat.testBit (idx % 8)

/-- `!TEST_BITMAP(columnBitmap, idx) || NULL_BIT(nullBitMap, idx)`: the null bit is that of the
    number of the column, whatever columns are absent. -/
def nullAt (columnBitmap nullBitMap : List UInt8) (idx : Nat) : Exec Bool := do
  if ← bitAt columnBitmap idx then bitAt nullBitMap idx else return true

/-! ## What the parser knows of the columns -/

def MYSQL_TYPE_DATE : Nat := 10
def MYSQL_TYPE_NEWDATE : Nat := 14
def MYSQL_TYPE_ENUM : Nat := 247
def MYSQL_TYPE_SET : Nat := 248
def MYSQL_TYPE_STRING : Nat := 254

/-- The types with a `parseFunc` in `initColumnTypeInfo`: `TINY` to `DOUBLE`, `TIMESTAMP`,
    `LONGLONG`, `INT24`, `DATETIME`, `YEAR`, `NEWDATE`, `VARCHAR`, `BIT`, `TIMESTAMP2`, `DATETIME2`,
    `TIME2`, `JSON`, `NEWDECIMAL`, `ENUM`, `SET`, the blobs, `VAR_STRING`, `STRING`, `GEOMETRY`. -/
def parsedTypes : List Nat :=
  [1, 2, 3, 4, 5, 7, 8, 9, 12, 13, 14, 15, 16, 17, 18, 19, 245, 246, 247, 248, 249, 250, 251, 252,
    253, 254, 255]

def metaLength (ctype : Nat) : Nat :=
  -- the blobs, `DOUBLE`, `FLOAT`, `GEOMETRY`, `JSON`, `TIME2`, `DATETIME2`, `TIMESTAMP2`
  if ctype ∈ [249, 252, 250, 251, 5, 4, 255, 245, 19, 18, 17] then 1
  -- `SET`, `ENUM`, `STRING`, `BIT`, `VARCHAR`, `NEWDECIMAL`
  else if ctype ∈ [248, 247, 254, 16, 15, 246] then 2
  else 0

/-- A `parseFunc`: the value it sets and the memory behind what it has read, or `none` if it does
    not return 0. -/
abbrev ParseFunc := ColumnMeta → List UInt8 → Exec (Option (List UInt8 × List UInt8))

/-- `getRealType`, with the memory of the metadata from the first column on. -/
def getRealType (tableDefType metaType : Nat) (metaInfo : List UInt8) (metaIndex : Nat) :
    Exec Nat :=
  if tableDefType = MYSQL_TYPE_SET ∨ tableDefType = MYSQL_TYPE_ENUM ∨
      tableDefType = MYSQL_TYPE_STRING then do
    let low ← tableAt metaInfo metaIndex
    let high ← tableAt metaInfo (metaIndex + 1)
    if 256 ≤ low.toNat + 256 * high.toNat ∧ low &&& 0x30 ≠ 0x30 then return (low ||| 0x30).toNat
    else return metaType
  else if tableDefType = MYSQL_TYPE_DATE then .ok MYSQL_TYPE_NEWDATE
  else .ok tableDefType

/-! ## The parser -/

def BINLOG_CHECKSUM_ALG_UNDEF : UInt8 := 255

/-- What is used of `formatEvent`. -/
structure FormatEvent where
  post_header_len : List UInt8
  common_header_len : UInt8
  alg : UInt8
  deriving DecidableEq

/-- `tableMap`; `columnCount` is the length of `types`, and `metaInfo` goes on to the end of the
    memory it is in. -/
structure TableMap where
  tableID : Nat
  dbName : String
  tableName : String
  types : List UInt8
  metaInfo : List UInt8
  deriving DecidableEq

def TableMap.columnCount (t : TableMap) : Nat := t.types.length

inductive ParseStatus where
  | OK | BEGIN | COMMIT | FILTER | NO_META | META_NOT_MATCH | ILLEGAL | REMAIND_RECORD_UNREAD
  deriving DecidableEq

/-- A record of a row: its head, the bytes that are allocated behind the `DMLRecord`, and the values
    that are set. -/
structure ParsedRow where
  type : RecordType
  meta' : Meta.TableMeta
  timestamp : Nat
  logOffset : Nat
  room : Nat
  row : List (Option (List UInt8))
  olds : Option (List OldColumn) := none
  deriving DecidableEq

/-- `BinlogEventParser`, between two events and with no record left to be taken. -/
structure BinlogEventParser where
  m_metaDataManager : String → String → Nat → Option Meta.TableMeta
  m_descEvent : FormatEvent
  m_currentFileID : Nat
  m_tableMap : TableMap
  parseFunc : Nat → ParseFunc

def ROWS_HEADER_LEN_V2 : UInt8 := 10
def WRITE_ROWS_EVENT_V1 : UInt8 := 23
def UPDATE_ROWS_EVENT_V1 : UInt8 := 24
def DELETE_ROWS_EVENT_V1 : UInt8 := 25
def WRITE_ROWS_EVENT : UInt8 := 30
def UPDATE_ROWS_EVENT : UInt8 := 31
def DELETE_ROWS_EVENT : UInt8 := 32

/-- `M_PARSER_RECORD_CACHE_VOLUMN`: the places of `m_parsedRecords`. -/
def M_PARSER_RECORD_CACHE_VOLUMN : Nat := 2048

def NULL_LENGTH : Nat := 2 ^ 64 - 1

/-- `net_field_length`: the length and the memory behind it. -/
def net_field_length (packet : List UInt8) : Exec (Nat × List UInt8) := do
  let first := (← tableAt packet 0).toNat
  let pos ← advance 1 packet
  if first < 251 then return (first, pos)
  else if first = 251 then return (NULL_LENGTH, pos)
  else if first = 252 then return (← ukorr 2 pos, ← advance 2 pos)
  else if first = 253 then return (← ukorr 3 pos, ← advance 3 pos)
  else return (← ukorr 4 pos, ← advance 8 pos)

def varHeaderLen (postHeaderLen : UInt8) (postStart : List UInt8) : Exec Nat := do
  if postHeaderLen ≠ ROWS_HEADER_LEN_V2 then return 0
  else
    let varHeaderLen ← ukorr 2 postStart
    if varHeaderLen < 2 then throw .assertFailed
    else return varHeaderLen - 2

/-- What `parseRowLogEventHeader` finds. -/
structure RowsHeader where
  tableId : Nat
  columnBitMap : List UInt8
  updatedColumnBitMap : Option (List UInt8)
  rows : List UInt8

def createMysqlRecordOffset (logId logOffset : Nat) : Nat := (logId % 2 ^ 32) <<< 44 ||| logOffset

def eventOffset (logEvent : List UInt8) : Nat := korr 4 logEvent LOG_POS_OFFSET

def eventSize (logEvent : List UInt8) : Nat := korr 4 logEvent EVENT_LEN_OFFSET

namespace BinlogEventParser

variable (p : BinlogEventParser)

def parseRowLogEventHeader (logevent : List UInt8) : Exec RowsHeader := do
  let commonHeaderLen := p.m_descEvent.common_header_len.toNat
  let eventType ← tableAt logevent EVENT_TYPE_OFFSET
  let postHeaderLen ← tableAt p.m_descEvent.post_header_len (eventType.toNat - 1)
  let postStart ← advance commonHeaderLen logevent
  let idWidth := if postHeaderLen = 6 then 4 else 6
  let tableId ← ukorr idWidth postStart
  let postStart ← advance (idWidth + 2) postStart
  let varHeaderLen ← varHeaderLen postHeaderLen postStart
  let ptrWidth ← advance (commonHeaderLen + postHeaderLen.toNat + varHeaderLen) logevent
  let (m_width, columnBitMap) ← net_field_length ptrWidth
  let bitmapSize := (m_width + 7) % 2 ^ 64 / 8
  let ptrAfterWidth ← advance bitmapSize columnBitMap
  if eventType = UPDATE_ROWS_EVENT ∨ eventType = UPDATE_ROWS_EVENT_V1 then
    return { tableId := tableId, columnBitMap := columnBitMap, updatedColumnBitMap := ptrAfterWidth,
             rows := ← advance bitmapSize ptrAfterWidth }
  else
    return { tableId := tableId, columnBitMap := columnBitMap, updatedColumnBitMap := none,
             rows := ptrAfterWidth }

/-- The body of the loop of `parseRowData`: the value that is set for column `idx`, and the memory
    behind it. -/
def parseColumn (columnBitmap nullBitMap : List UInt8) (idx ctype : Nat) (columnMeta : ColumnMeta)
    (data : List UInt8) : Exec (Except ParseStatus (Option (List UInt8) × List UInt8)) := do
  if ← nullAt columnBitmap nullBitMap idx then return .ok (none, data)
  else if ctype ∉ parsedTypes then return .error .META_NOT_MATCH
  else
    match ← p.parseFunc ctype columnMeta data with
    | none => return .error .ILLEGAL
    | some (value, data) => return .ok (some value, data)

/-- The loop of `parseRowData` from column `idx` on, for the types of the table map with the columns
    of the table: the values that are set and the memory behind the last one. -/
def parseColumns (columnBitmap nullBitMap : List UInt8) (idx metaIndex : Nat) :
    List (UInt8 × ColumnMeta) → List UInt8 →
      Exec (Except ParseStatus (List (Option (List UInt8)) × List UInt8))
  | [], data => .ok (.ok ([], data))
  | (type, columnMeta) :: columns, data => do
    let ctype ← getRealType type.toNat columnMeta.m_srcColumnType p.m_tableMap.metaInfo metaIndex
    match ← p.parseColumn columnBitmap nullBitMap idx ctype columnMeta data with
    | .error status => return .error status
    | .ok (value, data) =>
      match ← parseColumns columnBitmap nullBitMap (idx + 1) (metaIndex + metaLength ctype) columns
        data with
      | .error status => return .error status
      | .ok (row, data) => return .ok (value :: row, data)

/-- `parseRowData`: the values of one image. -/
def parseRowData (meta' : Meta.TableMeta) (columnBitmap data : List UInt8) :
    Exec (Except ParseStatus (List (Option (List UInt8)) × List UInt8)) := do
  -- the null bitmap is taken to have a bit for every column
  let values ← advance ((p.m_tableMap.columnCount + 7) / 8) data
  p.parseColumns columnBitmap data 0 0 (p.m_tableMap.types.zip meta'.m_columns) values

/-- `setUpdated*ColumnNull` and `set*UpdatedColumn`: what is said of an old value. -/
def oldColumn : Option (List UInt8) → OldColumn
  | none => .null
  | some v => .value v

/-- `initRecord` with `setRecordBasicInfo`. -/
def newRecord (logEvent : List UInt8) (meta' : Meta.TableMeta) (type : RecordType) : ParsedRow where
  type := type
  meta' := meta'
  timestamp := korr 4 logEvent 0 * 2 ^ 30
  logOffset := createMysqlRecordOffset p.m_currentFileID (eventOffset logEvent)
  -- the product is of 32 bits
  room := recordHeadSize + eventSize logEvent * 4 % 2 ^ 32
  row := []

/-- The loops over the rows while `places` of `m_parsedRecords` are free: the event ends where
    `last` bytes are left of the memory, and `parseRow` makes a record. -/
def parseRows (parseRow : List UInt8 → Exec (Except ParseStatus (ParsedRow × List UInt8)))
    (last : Nat) : Nat → List UInt8 → Exec (ParseStatus × List ParsedRow)
  | 0, data => do
    if last < data.length then
      match ← parseRow data with
      | .error status => return (status, [])
      -- `PUSH_RECORD` behind the last place
      | .ok _ => throw .outOfBounds
    else return (.OK, [])
  | places + 1, data => do
    if last < data.length then
      match ← parseRow data with
      | .error status => return (status, [])
      | .ok (record, data) =>
        if data.length < last then return (.ILLEGAL, [record])
        else
          let (status, records) ← parseRows parseRow last places data
          return (status, record :: records)
    else return (.OK, [])

/-- The body of the loop of `parseRowLogevent`. -/
def parseOneImage (record : ParsedRow) (header : RowsHeader) (data : List UInt8) :
    Exec (Except ParseStatus (ParsedRow × List UInt8)) := do
  match ← p.parseRowData record.meta' header.columnBitMap data with
  | .error status => return .error status
  | .ok (row, data) => return .ok ({ record with row := row }, data)

/-- The body of the loop of `parseUpdateRowLogevent`: the first image is set as the new values and
    the second as the old ones. -/
def parseTwoImages (record : ParsedRow) (header : RowsHeader) (data : List UInt8) :
    Exec (Except ParseStatus (ParsedRow × List UInt8)) := do
  match ← p.parseRowData record.meta' header.columnBitMap data with
  | .error status => return .error status
  | .ok (row, data) =>
    match ← p.parseRowData record.meta' (← deref header.updatedColumnBitMap) data with
    | .error status => return .error status
    | .ok (olds, data) => return .ok ({ record with row := row, olds := olds.map oldColumn }, data)

/-- The bytes of the checksum of an event. -/
def checksumLen : Nat :=
  let alg := p.m_descEvent.alg
  if alg ≠ BINLOG_CHECKSUM_ALG_OFF ∧ alg ≠ BINLOG_CHECKSUM_ALG_UNDEF then BINLOG_CHECKSUM_LEN else 0

/-- What `parseRowLogevent` and `parseUpdateRowLogevent` have in common: the size without a
    checksum, the header, the checks and the loop. -/
def parseRowsEvent (type : RecordType)
    (parseRow : ParsedRow → RowsHeader → List UInt8 →
      Exec (Except ParseStatus (ParsedRow × List UInt8)))
    (logEvent : List UInt8) (size : Nat) : Exec (ParseStatus × List ParsedRow) := do
  let size := size - p.checksumLen
  let header ← p.parseRowLogEventHeader logEvent
  if p.m_tableMap.tableID ≠ header.tableId then throw .assertFailed
  else
    match p.m_metaDataManager p.m_tableMap.dbName p.m_tableMap.tableName
        (createMysqlRecordOffset p.m_currentFileID (eventOffset logEvent)) with
    | none => return (.NO_META, [])
    | some meta' =>
      if meta'.columnsCount ≠ p.m_tableMap.columnCount then return (.META_NOT_MATCH, [])
      else
        parseRows (parseRow (p.newRecord logEvent meta' type) header) (logEvent.length - size)
          M_PARSER_RECORD_CACHE_VOLUMN header.rows

def parseRowLogevent (logEvent : List UInt8) (size : Nat) (type : RecordType) :
    Exec (ParseStatus × List ParsedRow) :=
  p.parseRowsEvent type p.parseOneImage logEvent size

def parseUpdateRowLogevent (logEvent : List UInt8) (size : Nat) :
    Exec (ParseStatus × List ParsedRow) :=
  p.parseRowsEvent .R_UPDATE p.parseTwoImages logEvent size

/-- `parser` of an event with rows; of another event `none`. -/
def parser (logEvent : List UInt8) (size : Nat) : Exec (Option (ParseStatus × List ParsedRow)) := do
  let type ← tableAt logEvent EVENT_TYPE_OFFSET
  if type = WRITE_ROWS_EVENT ∨ type = WRITE_ROWS_EVENT_V1 then
    return some (← p.parseRowLogevent logEvent size .R_INSERT)
  else if type = UPDATE_ROWS_EVENT ∨ type = UPDATE_ROWS_EVENT_V1 then
    return some (← p.parseUpdateRowLogevent logEvent size)
  else if type = DELETE_ROWS_EVENT ∨ type = DELETE_ROWS_EVENT_V1 then
    return some (← p.parseRowLogevent logEvent size .R_DELETE)
  else return none

end BinlogEventParser

end DBStream.Native.DATA_SOURCE
