import DBStream.ForStd.RawMemory
import DBStream.Native.MetaData

/-!
# Row images

`DMLRecord` of `message/record.h`: a record with the columns of a row, and for an update also the
old values of the columns that are updated.  The bytes of a record are in a memory in which `data` is
the address 0; what is behind the record is not protected.

| part | place |
|---|---|
| `recordHead`, `tableMetaID` | 0, 38 |
| `nullBitmap` | behind `tableMetaID` |
| `columns` | the fixed columns, at the offsets of the table |
| `varLengthColumns` | the starts of the other columns and the end of the last one, from `columns` |
| `updatedBitmap`, `updatedNullBitmap`, `oldColumns`, `oldVarLengthColumns` | likewise, of an update |
-/

namespace DBStream.Native

open Meta

def BITMAP_SIZE (l : Nat) : Nat := (l >>> 3) + if l &&& 0x7f ≠ 0 then 1 else 0

/-- `DMLRecord`, with the memory its pointers go to. -/
structure DMLRecord where
  mem : RawMemory
  meta' : Meta.TableMeta
  tableMetaID : Nat
  nullBitmap : Nat
  columns : Nat
  varLengthColumns : Nat
  oldColumns : Option Nat := none
  oldVarLengthColumns : Option Nat := none
  updatedBitmap : Option Nat := none
  updatedNullBitmap : Option Nat := none

namespace DMLRecord

def init (mem : RawMemory) : RawMemory :=
  let mem := mem.writeWord 1 4 0
  let mem := mem.writeWord 1 7 1
  let mem := mem.writeWord 1 5 recordHeadSize
  let mem := mem.writeWord 2 8 0
  let mem := mem.writeWord 8 10 0
  mem.writeWord 4 34 0

def initRecord (mem : RawMemory) (meta' : Meta.TableMeta) (type : RecordType) : Exec DMLRecord := do
  let mem := init mem
  let mem := mem.writeWord 1 6 type.code
  let mem := mem.writeWord 1 4 0
  let ptr := mem.readWord 1 5
  let mem := mem.writeWord 8 ptr meta'.m_id
  let nullBitmap := ptr + 8
  let mem := mem.write nullBitmap (List.replicate (BITMAP_SIZE meta'.columnsCount) 0)
  let columns := nullBitmap + BITMAP_SIZE meta'.columnsCount
  let fixedSize ← tableAt meta'.m_fixedColumnOffsetsInRecord meta'.m_fixedColumnCount
  let varLengthColumns := columns + fixedSize
  let mem := mem.writeWord 4 (varLengthColumns + 4 * meta'.m_varColumnCount)
    (varLengthColumns + 4 * (meta'.m_varColumnCount + 1) - columns)
  return { mem := mem, meta' := meta', tableMetaID := meta'.m_id, nullBitmap := nullBitmap,
           columns := columns, varLengthColumns := varLengthColumns }

def allocSize (meta' : Meta.TableMeta) : Nat :=
  recordHeadSize + 8 + BITMAP_SIZE meta'.columnsCount +
    meta'.m_fixedColumnOffsetsInRecord.getD meta'.m_fixedColumnCount 0 + 4 * (meta'.m_varColumnCount + 1)

variable (r : DMLRecord)

/-! ## Writing columns -/

/-- `meta->m_columns[id]`. -/
def columnType (id : Nat) : Exec Meta.ColumnType := do
  return (← tableAt r.meta'.m_columns id).m_columnType

/-- `meta->m_realIndexInRowFormat[id]`. -/
def realIndex (id : Nat) : Exec Nat := tableAt r.meta'.m_realIndexInRowFormat id

/-- `meta->m_fixedColumnOffsetsInRecord[meta->m_realIndexInRowFormat[id]]`. -/
def fixedOffset (id : Nat) : Exec Nat := do
  tableAt r.meta'.m_fixedColumnOffsetsInRecord (← r.realIndex id)

/-- `varLengthColumns[i]`, or another array of offsets. -/
def offsetAt (mem : RawMemory) (array i : Nat) : Nat := mem.readWord 4 (array + 4 * i)

/-- Store `varLengthColumns[i]`. -/
def setOffset (mem : RawMemory) (array i value : Nat) : RawMemory :=
  mem.writeWord 4 (array + 4 * i) value

/-- `setFixedColumn` with the bytes of the value. -/
def setFixedColumn (id : Nat) (value : List UInt8) : Exec DMLRecord := do
  let real ← r.realIndex id
  if r.meta'.columnsCount ≤ real then throw .assertFailed
  let offset ← r.fixedOffset id
  return { r with mem := (r.mem.write (r.columns + offset) value).setBit r.nullBitmap id }

def filledVarColumns (id size : Nat) : Exec DMLRecord := do
  let real ← r.realIndex id
  let last := r.meta'.m_varColumnCount
  let mem := setOffset r.mem r.varLengthColumns real (offsetAt r.mem r.varLengthColumns last)
  let mem := setOffset mem r.varLengthColumns last (offsetAt mem r.varLengthColumns last + size)
  return { r with mem := mem.setBit r.nullBitmap id }

def setVarColumn (id : Nat) (value : List UInt8) : Exec DMLRecord :=
  let start := r.columns + offsetAt r.mem r.varLengthColumns r.meta'.m_varColumnCount
  filledVarColumns { r with mem := r.mem.write start value } id value.length

def setVarColumnNull (id : Nat) : Exec DMLRecord := do
  let mem := r.mem.clearBit r.nullBitmap id
  let real ← r.realIndex id
  let last := r.meta'.m_varColumnCount
  return { r with mem := setOffset mem r.varLengthColumns real (offsetAt mem r.varLengthColumns last) }

def setFixedColumnNull (id : Nat) : Exec DMLRecord := do
  let mem := r.mem.clearBit r.nullBitmap id
  let offset ← r.fixedOffset id
  let type ← r.columnType id
  return { r with mem := mem.write (r.columns + offset) (List.replicate type.info.columnTypeSize 0) }

/-- Set a column to a value or to null, as `version::copyColumn` does. -/
def setColumn (id : Nat) (value : Option (List UInt8)) : Exec DMLRecord := do
  let type ← r.columnType id
  match type.info.fixed, value with
  | true, none => r.setFixedColumnNull id
  | true, some v => r.setFixedColumn id v
  | false, none => r.setVarColumnNull id
  | false, some v => r.setVarColumn id v

/-- Set the columns from number `id` on. -/
def setColumns (r : DMLRecord) (id : Nat) : List (Option (List UInt8)) → Exec DMLRecord
  | [] => .ok r
  | value :: row => do
    let r ← r.setColumn id value
    setColumns r (id + 1) row

/-! ## Writing old values -/

def startSetUpdateOldValue : Exec DMLRecord := do
  let bitmapSize := BITMAP_SIZE r.meta'.columnsCount
  let last := r.meta'.m_varColumnCount
  let updatedBitmap := r.columns + offsetAt r.mem r.varLengthColumns last
  let mem := r.mem.write updatedBitmap (List.replicate (bitmapSize * 2) 0)
  let updatedNullBitmap := updatedBitmap + bitmapSize
  let oldColumns := updatedNullBitmap + bitmapSize
  let fixedSize ← tableAt r.meta'.m_fixedColumnOffsetsInRecord r.meta'.m_fixedColumnCount
  let oldVarLengthColumns := oldColumns + fixedSize
  let mem := setOffset mem oldVarLengthColumns last (oldVarLengthColumns + 4 * (last + 1) - oldColumns)
  return { r with
    mem := mem, updatedBitmap := updatedBitmap, updatedNullBitmap := updatedNullBitmap
    oldColumns := oldColumns, oldVarLengthColumns := oldVarLengthColumns }

def setColumnNotUpdate (id : Nat) : Exec DMLRecord := do
  let updatedBitmap ← deref r.updatedBitmap
  let mem := r.mem.clearBit updatedBitmap id
  let type ← r.columnType id
  if type.info.fixed then
    let oldColumns ← deref r.oldColumns
    let offset ← r.fixedOffset id
    return { r with mem := mem.write (oldColumns + offset) (List.replicate type.info.columnTypeSize 0) }
  else
    let oldVarLengthColumns ← deref r.oldVarLengthColumns
    let real ← r.realIndex id
    let last := r.meta'.m_varColumnCount
    return { r with mem := setOffset mem oldVarLengthColumns real (offsetAt mem oldVarLengthColumns last) }

/-- `setUpdatedVarColumnNull`.  The offset it stores is of the new columns. -/
def setUpdatedVarColumnNull (id : Nat) : Exec DMLRecord := do
  let updatedNullBitmap ← deref r.updatedNullBitmap
  let mem := r.mem.clearBit updatedNullBitmap id
  let oldVarLengthColumns ← deref r.oldVarLengthColumns
  let real ← r.realIndex id
  let last := r.meta'.m_varColumnCount
  return { r with mem := setOffset mem oldVarLengthColumns real (offsetAt mem r.varLengthColumns last) }

def setUpdatedFixedColumnNull (id : Nat) : Exec DMLRecord := do
  let updatedNullBitmap ← deref r.updatedNullBitmap
  let mem := r.mem.clearBit updatedNullBitmap id
  let oldColumns ← deref r.oldColumns
  let offset ← r.fixedOffset id
  let type ← r.columnType id
  return { r with mem := mem.write (oldColumns + offset) (List.replicate type.info.columnTypeSize 0) }

/-- `setFixedUpdatedColumn` with the bytes of the value. -/
def setFixedUpdatedColumn (id : Nat) (value : List UInt8) : Exec DMLRecord := do
  let oldColumns ← deref r.oldColumns
  let offset ← r.fixedOffset id
  let mem := r.mem.write (oldColumns + offset) value
  let updatedNullBitmap ← deref r.updatedNullBitmap
  let updatedBitmap ← deref r.updatedBitmap
  return { r with mem := (mem.setBit updatedNullBitmap id).setBit updatedBitmap id }

def filledVardUpdatedColumn (id size : Nat) : Exec DMLRecord := do
  let real ← r.realIndex id
  let array ← deref r.oldVarLengthColumns
  let last := r.meta'.m_varColumnCount
  let mem := setOffset r.mem array real (offsetAt r.mem array last)
  let mem := setOffset mem array last (offsetAt mem array last + size)
  let updatedNullBitmap ← deref r.updatedNullBitmap
  return { r with mem := mem.setBit updatedNullBitmap id }

def setVardUpdatedColumn (id : Nat) (value : List UInt8) : Exec DMLRecord := do
  let oldColumns ← deref r.oldColumns
  let array ← deref r.oldVarLengthColumns
  let start := oldColumns + offsetAt r.mem array r.meta'.m_varColumnCount
  let r ← filledVardUpdatedColumn { r with mem := r.mem.write start value } id value.length
  let updatedBitmap ← deref r.updatedBitmap
  return { r with mem := r.mem.setBit updatedBitmap id }

/-- What an update says of the old value of a column. -/
inductive OldColumn where
  | notUpdate
  | null
  | value (v : List UInt8)
  deriving DecidableEq

/-- Say what the old value of a column was. -/
def setOldColumn (id : Nat) (old : OldColumn) : Exec DMLRecord := do
  let type ← r.columnType id
  match old, type.info.fixed with
  | .notUpdate, _ => r.setColumnNotUpdate id
  | .null, true => r.setUpdatedFixedColumnNull id
  | .null, false => r.setUpdatedVarColumnNull id
  | .value v, true => r.setFixedUpdatedColumn id v
  | .value v, false => r.setVardUpdatedColumn id v

/-- Say this of the columns from number `id` on. -/
def setOldColumns (r : DMLRecord) (id : Nat) : List OldColumn → Exec DMLRecord
  | [] => .ok r
  | old :: row => do
    let r ← r.setOldColumn id old
    setOldColumns r (id + 1) row

def finishedSet : Exec DMLRecord := do
  let last := r.meta'.m_varColumnCount
  match r.oldColumns with
  | none =>
    return { r with mem := r.mem.writeWord 4 0 (r.columns + offsetAt r.mem r.varLengthColumns last) }
  | some oldColumns =>
    let array ← deref r.oldVarLengthColumns
    return { r with mem := r.mem.writeWord 4 0 (oldColumns + offsetAt r.mem array last) }

/-! ## Reading -/

/-- `load` with `_load`. -/
def load (mem : RawMemory) (meta' : Meta.TableMeta) : Exec DMLRecord := do
  let ptr := mem.readWord 1 5
  let nullBitmap := ptr + 8
  let bitmapSize := BITMAP_SIZE meta'.columnsCount
  let columns := nullBitmap + bitmapSize
  let fixedSize ← tableAt meta'.m_fixedColumnOffsetsInRecord meta'.m_fixedColumnCount
  let varLengthColumns := columns + fixedSize
  let r : DMLRecord :=
    { mem := mem, meta' := meta', tableMetaID := mem.readWord 8 ptr, nullBitmap := nullBitmap,
      columns := columns, varLengthColumns := varLengthColumns }
  let type := mem.readWord 1 6
  if type = RecordType.R_UPDATE.code ∨ type = RecordType.R_REPLACE.code then
    let updatedBitmap := columns + offsetAt mem varLengthColumns meta'.m_varColumnCount
    let oldColumns := updatedBitmap + bitmapSize * 2
    return { r with
      updatedBitmap := updatedBitmap, updatedNullBitmap := updatedBitmap + bitmapSize
      oldColumns := oldColumns, oldVarLengthColumns := oldColumns + fixedSize }
  else return r

def size : Nat := r.mem.readWord 4 0

/-- `_column`: a pointer, or `nullptr`. -/
def _column (index nullBitmap columns varLengthColumns : Nat) : Exec (Option Nat) := do
  if !r.mem.testBit nullBitmap index then return none
  else
    let type ← r.columnType index
    if type.info.fixed then return some (columns + (← r.fixedOffset index))
    else return some (columns + offsetAt r.mem varLengthColumns (← r.realIndex index))

def column (index : Nat) : Exec (Option Nat) :=
  r._column index r.nullBitmap r.columns r.varLengthColumns

def columnIsNull (index : Nat) : Bool := !r.mem.testBit r.nullBitmap index

/-- The difference of two `uint32_t`. -/
def sub32 (a b : Nat) : Nat := (a + 2 ^ 32 - b % 2 ^ 32) % 2 ^ 32

/-- `_varColumnSize`.  The start of the column is read from the new columns, whatever array is
    given. -/
def _varColumnSize (index nullBitmap varLengthColumns : Nat) : Exec Nat := do
  if !r.mem.testBit nullBitmap index then return 0
  else
    let real ← r.realIndex index
    return sub32 (offsetAt r.mem varLengthColumns (real + 1)) (offsetAt r.mem r.varLengthColumns real)

def varColumnSize (index : Nat) : Exec Nat := r._varColumnSize index r.nullBitmap r.varLengthColumns

def oldColumnOfUpdateType (index : Nat) : Exec (Option Nat) := do
  if r.mem.testBit (← deref r.updatedBitmap) index then
    r._column index (← deref r.updatedNullBitmap) (← deref r.oldColumns)
      (← deref r.oldVarLengthColumns)
  else r.column index

def oldVarColumnSizeOfUpdateType (index : Nat) : Exec Nat := do
  if r.mem.testBit (← deref r.updatedBitmap) index then
    r._varColumnSize index (← deref r.updatedNullBitmap) (← deref r.oldVarLengthColumns)
  else r.varColumnSize index

def oldColumnIsNull (index : Nat) : Exec Bool := do
  if r.mem.testBit (← deref r.updatedBitmap) index then
    return !r.mem.testBit (← deref r.updatedNullBitmap) index
  else return r.columnIsNull index

end DMLRecord

end DBStream.Native
