import DBStream.Native.AppendingIndex
import DBStream.Native.DMLRecord

/-!
# A record as a row

What an index reads of a `DMLRecord`, by way of `column`, `varColumnSize`, `oldColumnOfUpdateType` and
`oldVarColumnSizeOfUpdateType` of `message/record.h`.
-/

namespace DBStream.Native

namespace DMLRecord

variable (r : DMLRecord)

/-- `head->minHead.type` is that of an update or a replace. -/
def isUpdateType : Bool :=
  let type := r.mem.readWord 1 6
  type = RecordType.R_UPDATE.code ∨ type = RecordType.R_REPLACE.code

/-- `TEST_BITMAP(updatedBitmap, index)`. -/
def isUpdated (index : Nat) : Bool :=
  match r.updatedBitmap with
  | none => false
  | some p => r.mem.testBit p index

/-- The bytes behind a pointer to a column: as many as its type has, or as the size tells. -/
def bytesOf (index : Nat) (pointer : Exec (Option Nat)) (size : Exec Nat) :
    Exec (Option (List UInt8)) := do
  match ← pointer with
  | none => return none
  | some p =>
    let type ← r.columnType index
    if type.info.fixed then return some (r.mem.read p type.info.columnTypeSize)
    else return some (r.mem.read p (← size))

/-- A column of the new image. -/
def newColumn (index : Nat) : Option (List UInt8) :=
  (r.bytesOf index (r.column index) (r.varColumnSize index)).toOption.join

/-- A column of the old image, as the index reads it. -/
def oldColumn (index : Nat) : Option (List UInt8) :=
  (r.bytesOf index (r.oldColumnOfUpdateType index) (r.oldVarColumnSizeOfUpdateType index)).toOption.join

end DMLRecord

/-- The row of a record. -/
def Row.ofRecord (r : DMLRecord) : Row where
  isUpdate := r.isUpdateType
  updatedBitmap := r.isUpdated
  column := r.newColumn
  oldColumnOfUpdateType := r.oldColumn

end DBStream.Native
