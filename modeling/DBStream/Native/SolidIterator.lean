import DBStream.ForStd.BinarySearch
import DBStream.Native.Database

/-!
# Iterators over a solid block

`solidBlockIterator` of `database/solidBlock.{h,cpp}` with the status machine of
`database/iterator.h` and the filter of `database/filter.h`.

An iterator is the four fields that move; its block, flag and filter are arguments.  What
it does with pages is in a `PageReader`: `value` gives the bytes behind the position of a
record, `clear` gives the cached pages back, both with an effect on a state of their own.
A filter is any three tests.
-/

namespace DBStream.Native

/-- `iterator::status`. -/
inductive IterStatus where
  | OK | UNINIT | BLOCKED | INVALID | ENDED
  deriving DecidableEq

def increase (flag : Nat) : Bool := flag &&& ITER_FLAG_DESC = 0

/-- `filter`, as the iterators use it. -/
structure Filter where
  filterByGeneralInfo : (tableId recordType logOffset timestamp : Nat) → Bool
  onlyNeedGeneralInfo : Bool
  filterByRecord : List UInt8 → Bool

/-- The page side of an iterator: `value(uint32_t)`, and the loop over `m_pageCache` with which
    `resetBlock` and the destructor start. -/
structure PageReader (σ : Type) where
  value : SolidBlock → Nat → σ → Exec (Option (List UInt8) × σ)
  clear : SolidBlock → σ → Exec σ

/-- The reader of an iterator that needs no page. -/
def noPages : PageReader Unit where
  value _ _ _ := .error .nullDeref
  clear _ _ := .ok ()

/-- The moving part of a `solidBlockIterator`.  `m_recordId` and `m_seekedId` are `uint32_t`. -/
structure SolidBlockIterator where
  m_recordId : Nat := 0
  m_seekedId : Nat := 0
  m_realRecordId : Nat := 0
  m_status : IterStatus := .INVALID
  deriving DecidableEq

namespace SolidBlockIterator

variable {σ : Type} (P : PageReader σ) (b : SolidBlock) (flag : Nat) (filter : Option Filter)

/-- `filterCurrentSeekRecord`: `0` if the record at `m_seekedId` passes, `1` if not, `-1` if it
    cannot be read. -/
def filterCurrentSeekRecord (it : SolidBlockIterator) (s : σ) :
    Exec (Int × SolidBlockIterator × σ) :=
  match filter with
  | none => .ok (0, it, s)
  | some f => do
    let info ← tableAt b.m_recordInfos it.m_seekedId
    let table ← tableAt b.m_tableInfo info.tableIndex
    if f.filterByGeneralInfo table.tableId info.recordType info.logOffset info.timestamp then
      if f.onlyNeedGeneralInfo then return (0, it, s)
      else
        let (record, s) ← P.value b it.m_seekedId s
        match record with
        | none => return (-1, { it with m_status := .INVALID }, s)
        | some d => return (if f.filterByRecord d then 0 else 1, it, s)
    else return (1, it, s)

/-- The step of `m_seekedId` at the start of a turn, and whether it is at a record then. -/
def advance (it : SolidBlockIterator) : Bool × SolidBlockIterator :=
  if increase flag then
    let seeked := (it.m_seekedId + 1) % 2 ^ 32
    (decide (seeked < b.head.m_recordCount), { it with m_seekedId := seeked })
  else if it.m_seekedId = 0 then (false, it)
  else (true, { it with m_seekedId := it.m_seekedId - 1 })

/-- The loop of `next`. -/
def nextLoop : Nat → SolidBlockIterator → σ → Exec (IterStatus × SolidBlockIterator × σ)
  | 0, _, _ => .error .endless
  | fuel + 1, it, s =>
    let (more, it) := advance b flag it
    if more then do
      let (r, it, s) ← filterCurrentSeekRecord P b filter it s
      if r = 0 then
        return (.OK, { it with
          m_recordId := it.m_seekedId
          m_realRecordId := it.m_seekedId + b.head.m_minRecordId }, s)
      else if it.m_status = .INVALID then return (.INVALID, it, s)
      else nextLoop fuel it s
    else .ok (.ENDED, { it with m_status := .ENDED }, s)

/-- `next`.  The loop runs over the records of the block, from the one behind `m_seekedId` to the
    last (the first), so it has at most one turn more than the block has records. -/
def next (it : SolidBlockIterator) (s : σ) : Exec (IterStatus × SolidBlockIterator × σ) :=
  nextLoop P b flag filter (b.head.m_recordCount + 2) it s

/-- `begin`, for an iterator with a block. -/
def begin (it : SolidBlockIterator) (s : σ) : Exec (SolidBlockIterator × σ) := do
  let it := if increase flag then
      { it with m_recordId := 0, m_seekedId := 0, m_realRecordId := b.head.m_minRecordId }
    else
      { it with
        m_recordId := b.head.m_recordCount
        m_seekedId := b.head.m_recordCount
        m_realRecordId := b.head.m_minRecordId + b.head.m_recordCount }
  let (r, it, s) ← filterCurrentSeekRecord P b filter it s
  if r ≠ 0 then
    if it.m_status = .INVALID then
      let (status, it, s) ← next P b flag filter it s
      return ({ it with m_status := status }, s)
    else return (it, s)
  else return ({ it with m_status := .OK }, s)

/-- The constructor: `iterator` sets the status to `INVALID`. -/
def create (s : σ) : Exec (SolidBlockIterator × σ) := begin P b flag filter {} s

/-- `resetBlock`, from the block `old` to `b`. -/
def resetBlock (old : SolidBlock) (it : SolidBlockIterator) (s : σ) :
    Exec (SolidBlockIterator × σ) := do
  let s ← P.clear old s
  begin P b flag filter it s

/-- What the seeks by record id and by log offset do once they have the place `m`: they position
    the iterator and go on to the first record from there that passes the filter. -/
def seekTo (m : Nat) (it : SolidBlockIterator) (s : σ) : Exec (Bool × SolidBlockIterator × σ) := do
  let it := { it with
    m_recordId := m, m_seekedId := m, m_realRecordId := m + b.head.m_minRecordId }
  let (r, it, s) ← filterCurrentSeekRecord P b filter it s
  if r ≠ 0 then
    if it.m_status = .INVALID then return (false, it, s)
    else
      let (status, it, s) ← next P b flag filter it s
      if status = .OK then return (true, { it with m_status := .OK }, s)
      else return (false, { it with m_recordId := 0xfffffffe }, s)
  else return (true, { it with m_status := .OK }, s)

/-- The loop `while (next() == status::OK)` of `solidBlockTimestampIterator`: the first record it
    comes to whose time satisfies `found`. -/
def seekTimeLoop (found : Nat → Bool) :
    Nat → SolidBlockIterator → σ → Exec (Bool × SolidBlockIterator × σ)
  | 0, _, _ => .error .endless
  | fuel + 1, it, s => do
    let (status, it, s) ← next P b flag filter it s
    if status = .OK then
      let info ← tableAt b.m_recordInfos it.m_recordId
      if found info.timestamp then return (true, { it with m_status := .OK }, s)
      else seekTimeLoop found fuel it s
    else return (false, it, s)

/-- `solidBlockTimestampIterator::seek`: `seekIncrease` or `seekDecrease`. -/
def seekTimestamp (timestamp : Nat) (it : SolidBlockIterator) (s : σ) :
    Exec (Bool × SolidBlockIterator × σ) :=
  let it := { it with m_status := .UNINIT }
  if b.head.m_maxTime < timestamp ∨ timestamp < b.head.m_minTime then .ok (false, it, s)
  else
    let start := if increase flag then 2 ^ 32 - 1 else b.head.m_recordCount
    seekTimeLoop P b flag filter
      (fun t => if increase flag then decide (timestamp ≤ t) else decide (t ≤ timestamp))
      (b.head.m_recordCount + 1) { it with m_recordId := start, m_seekedId := start } s

/-- The binary search of the checkpoint iterators over the record numbers `s..e`. -/
def searchOffset (offsetAt : Nat → Exec Nat) (logOffset : Nat) (fuel : Nat) (s e m : Int) :
    Exec (Bool × Int × Int × Int) :=
  binarySearch Fault.endless (fun i => do
    let offset ← offsetAt i.toNat
    return compare logOffset offset) fuel s e m

/-- `solidBlockCheckpointIterator::seek`. -/
def seekCheckpoint (logOffset : Nat) (it : SolidBlockIterator) (s : σ) :
    Exec (Bool × SolidBlockIterator × σ) :=
  let it := { it with m_status := .UNINIT }
  if b.head.m_maxLogOffset < logOffset ∨ logOffset < b.head.m_minLogOffset then .ok (false, it, s)
  else do
    let last : Int := (b.head.m_recordCount : Int) - 1
    let offsetAt := fun i => do
      let info ← tableAt b.m_recordInfos i
      return info.logOffset
    let (found, m, lo, hi) ← searchOffset offsetAt logOffset (b.head.m_recordCount + 1) 0 last 0
    if found then seekTo P b flag filter m.toNat it s
    else
      let m := if hi < 0 then 0 else m
      let m := if last < lo then last else m
      let offset ← offsetAt m.toNat
      if increase flag then
        if offset < logOffset then
          if m = last then return (false, it, s) else seekTo P b flag filter (m + 1).toNat it s
        else seekTo P b flag filter m.toNat it s
      else if logOffset < offset then
        if m = 0 then return (false, it, s) else seekTo P b flag filter (m - 1).toNat it s
      else seekTo P b flag filter m.toNat it s

/-- `solidBlockRecordIdIterator::seek`. -/
def seekRecordId (recordId : Nat) (it : SolidBlockIterator) (s : σ) :
    Exec (Bool × SolidBlockIterator × σ) :=
  let it := { it with m_status := .UNINIT }
  if recordId < b.head.m_minRecordId ∨ b.head.m_minRecordId + b.head.m_recordCount < recordId then
    .ok (false, it, s)
  else seekTo P b flag filter (recordId - b.head.m_minRecordId) it s

end SolidBlockIterator

end DBStream.Native
