import DBStream.ForStd.LinkedCells
import DBStream.Native.DMLRecord

/-!
# Rows of the key-value store

`version` and `row` of `memKvDatabase/row.h`, with what `transaction` of
`memKvDatabase/transaction.{h,cpp}` and `instance::startTrans` do with a row.

The versions of a row are in memory of the buffer pool; a pointer is an address there, and reading
what has been freed is a fault.  The address at which the pool puts a new version is an argument.
Of the record of a version the type, the size, the transaction id, the table and the values of the
columns are kept.  What is not written yet is none, and a fault to read.  The locks of the tables make
each of the steps here atomic.  The redo list of a transaction, which is only linked, is left out.
-/

namespace DBStream.Native.KVDB

open Meta

/-! ## Memory of the pool -/

def pageSizeList : List Nat :=
  [128, 256, 512, 4 * 1024, 8 * 1024, 12 * 1024, 16 * 1024, 32 * 1024, 64 * 1024, 128 * 1024,
    512 * 1024, 512 * 1024 + 512 * 1024 / 255 + 16]

/-- How many bytes there are where `bufferPool::alloc` puts what has a size.  A `basicBlock` of 24
    bytes, with the first byte of the page at 16, has one byte less than itself beside the page.
    What no page holds comes from `malloc`, which has no half of the address space to give. -/
def bufferPool.room (size : Nat) : Nat :=
  match pageSizeList.find? (size ≤ ·) with
  | some page => page + (24 - 1) - 16
  | none => if size < 2 ^ 63 then size else 0

/-- Read what may not have been written. -/
def written {α : Type} : Option α → Exec α
  | none => .error .uninitialized
  | some a => .ok a

/-! ## Versions -/

/-- The errors of `errorCode` that a row or a transaction reports. -/
inductive ErrorCode where
  | FIELD_NOT_FOUND
  | GET_LOCK_FAILED
  | ROW_NOT_EXIST
  | TRANSACTION_NOT_START
  | TRANSACTION_HAS_START
  deriving DecidableEq

/-- A `dsStatus`: nothing if it is ok, or an error with its text. -/
abbrev Status := Option (ErrorCode × String)

/-- `columnChange`.  A null pointer is a column set to null. -/
structure ColumnChange where
  columnId : Nat
  newValue : Option (List UInt8)
  deriving DecidableEq

/-- `size`: the length of the value, and no byte for a null. -/
def ColumnChange.size (c : ColumnChange) : Nat := (c.newValue.getD []).length

/-- The loop of `version::update` over the columns from number `i` on, with the changes not used
    yet. -/
def copyColumns : Nat → List (Option (List UInt8)) → List ColumnChange → List (Option (List UInt8))
  | _, [], _ => []
  | i, value :: values, [] => value :: copyColumns (i + 1) values []
  | i, value :: values, c :: cs =>
    if c.columnId = i then c.newValue :: copyColumns (i + 1) values cs
    else value :: copyColumns (i + 1) values (c :: cs)

@[simp] theorem length_copyColumns (i : Nat) (values : List (Option (List UInt8)))
    (change : List ColumnChange) : (copyColumns i values change).length = values.length := by
  induction values generalizing i change with
  | nil => rfl
  | cons value values ih =>
    cases change with
    | nil => simp [copyColumns, ih]
    | cons c cs =>
      unfold copyColumns
      split_ifs <;> simp [ih]

/-- What the record of a version has of a row: its table, and the value of each column or null.
    The table has a column. -/
structure RowData where
  meta' : Meta.TableMeta
  columns : List (Option (List UInt8))
  length_eq : columns.length = meta'.columnsCount
  ne_nil : columns ≠ []
  deriving DecidableEq

namespace RowData

variable (d : RowData)

/-- The bytes of the columns that have no fixed size. -/
def varSizes : List Nat :=
  List.zipWith (fun c value => if c.m_columnType.info.fixed then 0 else (value.getD []).length)
    d.meta'.m_columns d.columns

/-- The size of the record. -/
def recordSize : Nat := DMLRecord.allocSize d.meta' + d.varSizes.sum

def varColumnSize (index : Nat) : Nat := ((d.columns.getD index none).getD []).length

/-- `tableMeta::getColumn` of a number.  The number behind the last one is let through. -/
def getColumn (idx : Nat) : Exec (Option ColumnMeta) :=
  if d.meta'.columnsCount < idx then .ok none
  else do return some (← tableAt d.meta'.m_columns idx)

/-- The loop of `version::update` over the changes: an error, or the growth of the columns that have
    no fixed size. -/
def deltaSize (d : RowData) : List ColumnChange → Int → Exec (Status × Int)
  | [], delta => .ok (none, delta)
  | c :: cs, delta => do
    match ← d.getColumn c.columnId with
    | none =>
      return (some (.FIELD_NOT_FOUND, "field not found,column index:" ++ toString c.columnId ++
        ",table:" ++ d.meta'.m_dbName ++ "." ++ d.meta'.m_tableName), delta)
    | some col =>
      if col.m_columnType.info.fixed then deltaSize d cs delta
      else deltaSize d cs (delta + (c.size - d.varColumnSize c.columnId))

/-- The row with its changes. -/
def update (change : List ColumnChange) : RowData where
  meta' := d.meta'
  columns := copyColumns 0 d.columns change
  length_eq := by rw [length_copyColumns, d.length_eq]
  ne_nil h := d.ne_nil (by rw [← List.length_eq_zero_iff, ← length_copyColumns 0 d.columns change, h]; rfl)

end RowData

structure Version where
  prev : Option Nat := none
  next : Option Nat := none
  type : RecordType
  txnId : Nat := 0
  size : Option Nat
  data : Option RowData
  deriving DecidableEq

/-- The memory of the versions. -/
abbrev Memory := Cells Version

/-- Read through a pointer. -/
def read (mem : Memory) (p : Option Nat) : Exec (Nat × Version) :=
  match p with
  | none => .error .nullDeref
  | some a =>
    match mem.get a with
    | none => .error .dangling
    | some v => .ok (a, v)

namespace Version

/-- `sizeof(version)`, and where `data` is in it. -/
def sizeof : Nat := 112

def offsetofData : Nat := 24

/-- `sizeof(record)`. -/
def sizeofRecord : Nat := 16

/-- Whether a version is the mark of a deleted row. -/
def isDelete (v : Version) : Bool := v.type = .R_DELETE

/-- The version that `allocForInsert` makes of a row. -/
def allocForInsert (d : RowData) : Version :=
  { type := .R_INSERT, size := some (d.recordSize % 2 ^ 32), data := some d }

/-- The size that `version::update` asks the pool for. -/
def updateSize (size : Nat) (delta : Int) : Nat :=
  ((sizeof + size + delta.bmod (2 ^ 32)) % 2 ^ 64).toNat

/-- The version that `version::update` makes.  The size of its record is not written. -/
def updated (d : RowData) (this tid : Nat) (change : List ColumnChange) : Version :=
  { prev := some this, type := .R_INSERT, txnId := tid, size := none, data := some (d.update change) }

/-- `version::update` of the version at `this`: its answer, and the memory with the new version. -/
def update (mem : Memory) (this : Nat) (v : Version) (new tid : Nat) (change : List ColumnChange) :
    Exec (Status × Memory) := do
  let d ← written v.data
  match ← d.deltaSize change 0 with
  | (some e, _) => return (some e, mem)
  | (none, delta) =>
    let size ← written v.size
    -- the record is written to its end
    if bufferPool.room (updateSize size delta) < sizeof + (d.update change).recordSize then
      throw .outOfBounds
    return (none, (mem.put new (updated d this tid change)).put this { v with next := some new })

/-- `version::drop`.  The memory has place for the `data` that is a `record`, but the record is put
    behind a whole `version`. -/
def drop (mem : Memory) (this : Nat) (v : Version) (new tid : Nat) : Exec Memory := do
  if bufferPool.room (offsetofData + sizeofRecord + recordHeadSize) <
      sizeof + sizeofRecord + recordHeadSize then
    throw .outOfBounds
  let w : Version :=
    { prev := some this, type := .R_DELETE, txnId := tid, size := some recordHeadSize, data := none }
  return (mem.put new w).put this { v with next := some new }

end Version

/-! ## Rows -/

/-- `row`, with the memory its versions are in. -/
structure Row where
  current : Option Nat := none
  head : Option Nat := none
  tail : Option Nat := none
  owner : Nat := 0
  mem : Memory := []
  deriving DecidableEq

namespace Row

variable (r : Row)

def lock (uid : Nat) : Option Row :=
  if r.owner ≠ 0 ∧ r.owner ≠ uid then none else some { r with owner := uid }

def unlockWithOutCheck : Row := { r with owner := 0 }

/-- The status when there is no lock. -/
def lockFailed : Status := some (.GET_LOCK_FAILED, "get lock failed")

/-- `select`: the version that is shown. -/
def select : Exec (Status × Option Version) :=
  match r.current with
  | none => .ok (some (.ROW_NOT_EXIST, "select failed for row not exist"), none)
  | some a => do
    let (_, v) ← read r.mem (some a)
    if v.isDelete then return (some (.ROW_NOT_EXIST, "select failed for row not exist"), none)
    else return (none, some v)

/-- Whether the row has no tail, or one that deletes it. -/
def tailMissing : Exec Bool :=
  match r.tail with
  | none => .ok true
  | some t => do
    let (_, v) ← read r.mem (some t)
    return v.isDelete

/-- `insert` of the version that `allocForInsert` has put at `new`.  A version that follows a deleted
    one is linked, but the tail stays. -/
def insert (uid new : Nat) (data : RowData) : Exec (Status × Row) := do
  let rowNotExist : Status := some (.ROW_NOT_EXIST, "can not delete, row not exist")
  if !(← r.tailMissing) then return (rowNotExist, r)
  else
    match r.lock uid with
    | none => return (lockFailed, r)
    | some r =>
      match r.tail with
      | some t => do
        let (_, d) ← read r.mem (some t)
        return (none, { r with mem := (r.mem.put new
          { Version.allocForInsert data with prev := some t }).put t { d with next := some new } })
      | none =>
        -- the row is shown from here on, whatever becomes of the transaction
        return (none, { r with
          mem := r.mem.put new (Version.allocForInsert data)
          tail := some new, current := some new, head := some new })

def update (uid new tid : Nat) (change : List ColumnChange) : Exec (Status × Row) := do
  if ← r.tailMissing then return (some (.ROW_NOT_EXIST, "can not update, row not exist"), r)
  else
    match r.lock uid with
    | none => return (lockFailed, r)
    | some r => do
      let (t, v) ← read r.mem r.tail
      match ← Version.update r.mem t v new tid change with
      | (some e, _) => return (some e, r.unlockWithOutCheck)
      | (none, mem) => return (none, { r with mem := mem, tail := some new })

def drop (uid new tid : Nat) : Exec (Status × Row) := do
  if ← r.tailMissing then return (some (.ROW_NOT_EXIST, "can not delete, row not exist"), r)
  else
    match r.lock uid with
    | none => return (lockFailed, r)
    | some r => do
      let (t, v) ← read r.mem r.tail
      let mem ← Version.drop r.mem t v new tid
      return (none, { r with mem := mem, tail := some new })

def commit : Row := { r with current := r.tail }.unlockWithOutCheck

/-- The loop of `rollback`.  Each turn frees a version. -/
def freeFrom : Nat → Option Nat → Memory → Exec Memory
  | _, none, mem => .ok mem
  | 0, some _, _ => .error .endless
  | fuel + 1, some a, mem => do
    let (_, v) ← read mem (some a)
    freeFrom fuel v.next (mem.free a)

/-- `rollback`.  The tail is not written. -/
def rollback : Exec Row := do
  let (c, v) ← read r.mem r.current
  let mem := r.mem.put c { v with next := none }
  let mem ← freeFrom (mem.length + 1) v.next mem
  return { r with mem := mem }.unlockWithOutCheck

end Row

/-! ## Clients -/

/-- What a `clientHandle` and its `transaction` know of a row: `hasRow` is whether the row is in
    `m_rows`. -/
structure Client where
  m_txnId : Nat := 0
  m_start : Bool := false
  hasRow : Bool := false
  deriving DecidableEq

namespace Client

variable (c : Client)

/-- `instance::startTrans`, with the id it takes from `m_tid`. -/
def startTrans (tid : Nat) : Status × Client :=
  if c.m_start then (some (.TRANSACTION_HAS_START, "transaction has started"), c)
  else (none, { c with m_txnId := tid, m_start := true, hasRow := false })

/-- `transaction::newOperator` after an operation that went well. -/
def newOperator (status : Status) : Client :=
  if status.isNone then { c with hasRow := true } else c

/-- `transaction::commit`.  The rows stay in `m_rows`. -/
def commit (r : Row) : Status × Client × Row :=
  if c.m_start then (some (.TRANSACTION_NOT_START, "transaction not start"), c, r)
  else (none, { c with m_start := false }, if c.hasRow then r.commit else r)

def rollback (r : Row) : Exec (Status × Client × Row) :=
  if c.m_start then .ok (some (.TRANSACTION_NOT_START, "transaction not start"), c, r)
  else do
    let r ← if c.hasRow then r.rollback else .ok r
    return (none, { c with m_start := false, hasRow := false }, r)

end Client

end DBStream.Native.KVDB
