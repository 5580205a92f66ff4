import DBStream.ForStd.Loops
import DBStream.Native.SolidIterator

/-!
# Iterators over the records of a block

`filter` of `database/filter.h`, `appendingBlockIterator` of `database/appendingBlock.h` and the
virtual functions of `database/iterator.h` by which a client goes through a block, whatever its
form.

As for a solid block, an iterator is its fields that move; the block, the flag and the filter
are arguments.
-/

namespace DBStream.Native

/-! ## The filter -/

def FL_CHECKPOINT : Nat := 0x01
def FL_TABLE_ID : Nat := 0x02
def FL_RECORD_TYPE : Nat := 0x10

/-- `filter`.  `m_typeBitmap` is the memory from the field on, as one number. -/
structure RecordFilter where
  m_filterType : Nat
  m_startCheckpoint : Nat
  m_endCheckpoint : Nat
  m_typeBitmap : Nat

namespace RecordFilter

variable (f : RecordFilter)

/-- The bits of `m_filterType` outside of `FL_CHECKPOINT | FL_TABLE_ID | FL_RECORD_TYPE`. -/
def onlyNeedGeneralInfo : Bool :=
  decide (f.m_filterType &&&
    (2 ^ 32 - 1 - (FL_CHECKPOINT ||| FL_TABLE_ID ||| FL_RECORD_TYPE)) ≠ 0)

/-- `filterByTableID`, still to be done in the source. -/
def filterByTableID (_tableID : Nat) : Bool := true

def filterByGeneralInfo (tableId recordType LogOffset _timestamp : Nat) : Bool :=
  if ¬f.m_typeBitmap.testBit recordType then false
  else if f.m_filterType &&& FL_CHECKPOINT ≠ 0 ∧
      (LogOffset < f.m_startCheckpoint ∨ f.m_endCheckpoint < LogOffset) then false
  else if f.m_filterType &&& FL_TABLE_ID ≠ 0 ∧ ¬filterByTableID tableId then false
  else true

/-- `filterByRecord`: the tests of `filterByGeneralInfo`, on what the record says itself. -/
def filterByRecord (record : List UInt8) : Bool :=
  f.filterByGeneralInfo (DMLRecord.tableId record) (RecordHead.type record)
    (RecordHead.logOffset record) (RecordHead.timestamp record)

/-- The filter as the iterators use it. -/
def toFilter : Filter where
  filterByGeneralInfo := f.filterByGeneralInfo
  onlyNeedGeneralInfo := f.onlyNeedGeneralInfo
  filterByRecord := f.filterByRecord

end RecordFilter

/-! ## The appending block -/

/-- `ITER_FLAG_WAIT` and `ITER_FLAG_SCHEDULE`. -/
def ITER_FLAG_WAIT : Nat := 1
def ITER_FLAG_SCHEDULE : Nat := 2

/-- The moving part of an `appendingBlockIterator`.  `m_recordId` and `m_seekedId` are
    `uint32_t`. -/
structure AppendingBlockIterator where
  m_recordId : Nat := 0
  m_seekedId : Nat := 0
  m_realRecordId : Nat := 0
  m_status : IterStatus := .INVALID
  deriving DecidableEq

namespace AppendingBlockIterator

variable {I : IndexImpl} (b : AppendingBlock I) (flag : Nat) (filter : Option Filter)

/-- `m_filter != nullptr && !m_filter->filterByRecord(m_block->getRecord(id))`.  The callers pass
    the number of a record where `getRecord` takes its id. -/
def rejects (id : Nat) : Exec Bool :=
  match filter with
  | none => .ok false
  | some f => do
    let record ← b.getRecord id
    return !f.filterByRecord record

/-- The iterator comes to the record it has stepped to. -/
def arrive (it : AppendingBlockIterator) : IterStatus × AppendingBlockIterator :=
  (.OK, { it with
    m_recordId := it.m_seekedId
    m_realRecordId := it.m_seekedId + b.m_minRecordId
    m_status := .OK })

/-- The iterator stops with a status. -/
def stop (status : IterStatus) (it : AppendingBlockIterator) :
    IterStatus × AppendingBlockIterator :=
  (status, { it with m_status := status })

/-- The loop of `realNext`. -/
def realNextLoop : Nat → AppendingBlockIterator → Exec (IterStatus × AppendingBlockIterator)
  | 0, _ => .error .endless
  | fuel + 1, it =>
    -- the condition of the `do` loop, which `continue` goes to as well
    let check := fun it : AppendingBlockIterator => do
      if ← rejects b filter it.m_seekedId then realNextLoop fuel it else return arrive b it
    let next := (it.m_seekedId + 1) % 2 ^ 32
    if b.m_recordCount ≤ next then
      if b.m_flag.finished then .ok (stop .ENDED it)
      else if flag &&& ITER_FLAG_SCHEDULE ≠ 0 then .ok (stop .BLOCKED it)
      else if flag &&& ITER_FLAG_WAIT ≠ 0 then check it
      else .ok (stop .BLOCKED it)
    else check { it with m_seekedId := next }

/-- The loop of `realPrev`, which calls the filter without looking whether there is one. -/
def realPrevLoop : Nat → AppendingBlockIterator → Exec (IterStatus × AppendingBlockIterator)
  | 0, _ => .error .endless
  | fuel + 1, it =>
    if it.m_seekedId = 0 then .ok (stop .ENDED it)
    else
      let it := { it with m_seekedId := it.m_seekedId - 1 }
      match filter with
      | none => .error .nullDeref
      | some f => do
        let record ← b.getRecord it.m_seekedId
        if f.filterByRecord record then return arrive b it else realPrevLoop fuel it

def next (it : AppendingBlockIterator) : Exec (IterStatus × AppendingBlockIterator) :=
  if increase flag then realNextLoop b flag filter (b.m_recordCount + 2) it
  else realPrevLoop b filter (it.m_seekedId + 1) it

/-- `begin`, for an iterator with a block. -/
def begin (it : AppendingBlockIterator) : Exec AppendingBlockIterator := do
  let start := if increase flag then 0 else b.m_recordCount
  let it := { it with
    m_recordId := start
    m_seekedId := start
    m_realRecordId := b.m_minRecordId + start }
  if ← rejects b filter start then
    let (status, it) ← next b flag filter it
    return { it with m_status := status }
  else return { it with m_status := .OK }

def valid (it : AppendingBlockIterator) : Bool := decide (it.m_recordId < b.m_recordCount)

/-- `value`; `getRecordByInnerId` does what `getRecordByIdx` does. -/
def value (it : AppendingBlockIterator) : Exec (List UInt8) := b.getRecordByIdx it.m_recordId

end AppendingBlockIterator

/-! ## The solid block -/

/-- `value(uint32_t)` of a `solidBlockIterator` on a block with all pages in memory, up to the end
    of the record found there. -/
def memoryPages : PageReader Unit where
  value b rid _ := do
    let info ← tableAt b.m_recordInfos rid
    let p ← tableAt b.pages (RecordPosition.pageId info.offset)
    match p.pageData with
    | none => return (none, ())
    | some data =>
      let record ← recordAt data (RecordPosition.offsetInPage info.offset)
      return (some record, ())
  clear _ _ := .ok ()

/-! ## What a client sees -/

/-- The virtual functions of `iterator`, and `begin`. -/
structure BlockIterator (ι : Type) where
  begin : ι → Exec ι
  next : ι → Exec (IterStatus × ι)
  getStatus : ι → IterStatus
  valid : ι → Bool
  key : ι → Nat
  value : ι → Exec (Option (List UInt8))

def appendingBlockIterator {I : IndexImpl} (b : AppendingBlock I) (flag : Nat)
    (filter : Option Filter) : BlockIterator AppendingBlockIterator where
  begin := AppendingBlockIterator.begin b flag filter
  next := AppendingBlockIterator.next b flag filter
  getStatus it := it.m_status
  valid := AppendingBlockIterator.valid b
  key it := it.m_realRecordId
  value it := do
    let record ← AppendingBlockIterator.value b it
    return some record

/-- `solidBlockIterator`, on a block with all pages in memory. -/
def solidBlockIterator (b : SolidBlock) (flag : Nat) (filter : Option Filter) :
    BlockIterator SolidBlockIterator where
  begin it := do
    let (it, _) ← SolidBlockIterator.begin memoryPages b flag filter it ()
    return it
  next it := do
    let (status, it, _) ← SolidBlockIterator.next memoryPages b flag filter it ()
    return (status, it)
  getStatus it := it.m_status
  valid it := decide (it.m_recordId < b.head.m_recordCount)
  key it := it.m_realRecordId
  value it := do
    let (record, _) ← memoryPages.value b it.m_recordId ()
    return record

namespace BlockIterator

variable {ι : Type} (M : BlockIterator ι)

/-- The id and the bytes of the record an iterator stands on. -/
def current (it : ι) : Exec (Nat × Option (List UInt8)) := do
  let record ← M.value it
  return (M.key it, record)

/-- `next` until it does not return `OK`. -/
def pull (it : ι) : Exec (Option ((Nat × Option (List UInt8)) × ι)) := do
  let (status, it) ← M.next it
  if status = .OK then
    let row ← M.current it
    return some (row, it)
  else return none

/-- `begin` and then `next` until it stops: the records come to on the way.  A descending iterator
    begins behind the last record, where it is not `valid`. -/
def scan (fuel : Nat) (it : ι) : Exec (List (Nat × Option (List UInt8))) := do
  let it ← M.begin it
  if M.getStatus it = .OK then
    if M.valid it then
      let row ← M.current it
      let rest ← Drain.run .endless M.pull fuel it
      return row :: rest
    else Drain.run .endless M.pull fuel it
  else return []

end BlockIterator

end DBStream.Native
