import DBStream.Native.SolidIterator

/-!
# Iterators over the blocks of a database

`databaseIterator::next` and `databaseRecordIdIterator::seek` of
`database/databaseIterator.cpp`, for a chain of solid blocks with consecutive ids.  The
pointers `next` and `prev` of the blocks are the list of the blocks that lie ahead in the
direction of the iterator.  `use` succeeds on a block that nobody has released, so its loop is left out.
-/

namespace DBStream.Native

/-- `lastRecordId`, a `uint64_t`. -/
def SolidBlock.lastRecordId (b : SolidBlock) : Nat :=
  (((b.head.m_minRecordId + b.head.m_recordCount : Nat) - 1 : Int) % 2 ^ 64).toNat

/-- A `databaseIterator` on a solid block. -/
structure DatabaseIterator where
  m_current : SolidBlock
  ahead : List SolidBlock
  m_blockIter : SolidBlockIterator

namespace DatabaseIterator

variable {σ : Type} (P : PageReader σ) (flag : Nat) (filter : Option Filter)

/-- The loop of `next` from block to block. -/
def nextBlock (current : SolidBlock) (it : SolidBlockIterator) :
    List SolidBlock → σ → Exec (IterStatus × DatabaseIterator × σ)
  | [], s => .ok (if increase flag then .BLOCKED else .ENDED, ⟨current, [], it⟩, s)
  | b :: ahead, s => do
    let (it, s) ← SolidBlockIterator.resetBlock P b flag filter current it s
    if it.m_status = .ENDED then nextBlock b it ahead s
    else return (it.m_status, ⟨b, ahead, it⟩, s)

def next (d : DatabaseIterator) (s : σ) : Exec (IterStatus × DatabaseIterator × σ) := do
  let (status, it, s) ← SolidBlockIterator.next P d.m_current flag filter d.m_blockIter s
  if status = .ENDED then nextBlock P flag filter d.m_current it d.ahead s
  else return (status, { d with m_blockIter := it }, s)

/-- An iterator that begins on the first block of a chain. -/
def begin (b : SolidBlock) (ahead : List SolidBlock) (s : σ) : Exec (DatabaseIterator × σ) := do
  let (it, s) ← SolidBlockIterator.create P b flag filter s
  return (⟨b, ahead, it⟩, s)

/-- The end of `databaseRecordIdIterator::seek`, from the block `b` that has the record on: the
    iterator, if the seek in the block succeeds. -/
def seekIn (b : SolidBlock) (ahead : List SolidBlock) (recordId : Nat) (s : σ) :
    Exec (Option DatabaseIterator × σ) := do
  let (it, s) ← SolidBlockIterator.create P b flag filter s
  let (ok, it, s) ← SolidBlockIterator.seekRecordId P b flag filter recordId it s
  if ok then return (some ⟨b, ahead, it⟩, s) else return (none, ← P.clear b s)

/-- The comparison of the binary search of `databaseRecordIdIterator::seek` with block `m`. -/
def compareBlock (firstBlockId : Nat) (blocks : List SolidBlock) (recordId : Nat) (m : Int) :
    Exec Ordering :=
  match blocks[(m - firstBlockId).toNat]? with
  | none => .error .dangling
  | some b =>
    .ok (if b.lastRecordId < recordId then .gt
      else if recordId < b.head.m_minRecordId then .lt
      else .eq)

/-- `databaseRecordIdIterator::seek` over the blocks with the ids from `firstBlockId` on. -/
def seek (firstBlockId : Nat) (blocks : List SolidBlock) (recordId : Nat) (s : σ) :
    Exec (Option DatabaseIterator × σ) := do
  let last : Int := firstBlockId + blocks.length - 1
  let (found, m, _, _) ← binarySearch Fault.endless (compareBlock firstBlockId blocks recordId)
    (blocks.length + 1) firstBlockId last 0
  if found then
    let k := (m - firstBlockId).toNat
    let b ← tableAt blocks k
    seekIn P flag filter b (blocks.drop (k + 1)) recordId s
  else return (none, s)

end DatabaseIterator

end DBStream.Native

/-!
## Seeks by log offset

`appendingBlockCheckpointIterator::seek` of `database/appendingBlock.h` and
`databaseCheckpointIterator::seek` of `database/databaseIterator.cpp`, for iterators
without a filter.  `solidBlockCheckpointIterator::seek` is `SolidBlockIterator.seekCheckpoint`.

The blocks of a database are a list: the ones with the ids from `m_firstBlockId` on, in
memory.  So `getBasciBlock` does not answer null and the jumps back to `RESEEK` are left
out, and so is the loading of a solid block.
-/

namespace DBStream.Native

variable {I : IndexImpl}

/-- `next` without filter, as the seeks of `appendingBlockIterator` use it: `realNext`, or
    `realPrev`, which calls the filter without looking whether there is one. -/
def AppendingBlock.stepTo (b : AppendingBlock I) (flag seekedId : Nat) : Exec (Option SeekPos) :=
  if increase flag then
    let next := (seekedId + 1) % 2 ^ 32
    if b.m_recordCount ≤ next then .ok none
    else .ok (some ⟨b.m_blockID, next, b.m_minRecordId + next⟩)
  else if seekedId = 0 then .ok none
  else .error .nullDeref

/-- `appendingBlockCheckpointIterator::seek`.  The loop asks `getRecord`, which takes a record id,
    for the number of a record in the block. -/
def AppendingBlock.seekCheckpoint (b : AppendingBlock I) (flag logOffset : Nat) :
    Exec (Option SeekPos) :=
  if b.m_maxLogOffset < logOffset ∨ logOffset < b.m_minLogOffset then .ok none
  else do
    let last : Int := (b.m_recordCount : Int) - 1
    let offsetAt := fun i => do
      let d ← b.getRecord i
      return RecordHead.logOffset d
    -- the step is made once more, from the place before or behind `m`
    let find := fun m : Int =>
      b.stepTo flag (((if increase flag then m - 1 else m + 1) % 2 ^ 32).toNat)
    let (found, m, lo, hi) ← SolidBlockIterator.searchOffset offsetAt logOffset
      (b.m_recordCount + 1) 0 last 0
    if found then find m
    else
      let m := if hi < 0 then 0 else m
      let m := if last < lo then last else m
      let offset ← offsetAt m.toNat
      if increase flag then
        if logOffset ≤ offset then find m
        else if m = last then return none
        else
          let offset ← offsetAt (m + 1).toNat
          if logOffset ≤ offset then find (m + 1) else return none
      else
        if offset ≤ logOffset then find m
        else if m = 0 then return none
        else
          let offset ← offsetAt (m - 1).toNat
          if offset ≤ logOffset then find (m - 1) else return none

/-- A block of a database that is in memory. -/
inductive LogBlock (I : IndexImpl) where
  | appending (b : AppendingBlock I)
  | solid (b : SolidBlock)

namespace LogBlock

def m_blockID : LogBlock I → Nat
  | .appending b => b.m_blockID
  | .solid b => b.head.m_blockID

def m_minRecordId : LogBlock I → Nat
  | .appending b => b.m_minRecordId
  | .solid b => b.head.m_minRecordId

def m_recordCount : LogBlock I → Nat
  | .appending b => b.m_recordCount
  | .solid b => b.head.m_recordCount

def m_minLogOffset : LogBlock I → Nat
  | .appending b => b.m_minLogOffset
  | .solid b => b.head.m_minLogOffset

def m_maxLogOffset : LogBlock I → Nat
  | .appending b => b.m_maxLogOffset
  | .solid b => b.head.m_maxLogOffset

/-- The seek of the iterator that `databaseCheckpointIterator::seek` creates on a block. -/
def seekCheckpoint (flag logOffset : Nat) : LogBlock I → Exec (Option SeekPos)
  | .appending b => b.seekCheckpoint flag logOffset
  | .solid b => do
    let (it, s) ← SolidBlockIterator.create noPages b flag none ()
    let (ok, it, _) ← SolidBlockIterator.seekCheckpoint noPages b flag none logOffset it s
    return if ok then some ⟨b.head.m_blockID, it.m_recordId, it.m_realRecordId⟩ else none

end LogBlock

/-- The comparison of the search over the blocks. -/
def compareOffsets (firstBlockId : Nat) (blocks : List (LogBlock I)) (logOffset : Nat) (m : Int) :
    Exec Ordering := do
  let b ← tableAt blocks (m - firstBlockId).toNat
  return if b.m_maxLogOffset < logOffset then .gt
    else if logOffset < b.m_minLogOffset then .lt
    else .eq

/-- The choice of a block when none was found: the last one looked at, or a neighbour of it. -/
def neighbour (firstBlockId : Nat) (blocks : List (LogBlock I)) (flag logOffset : Nat) (m : Int) :
    Exec (Option (LogBlock I)) := do
  let block := fun m : Int => tableAt blocks (m - firstBlockId).toNat
  let b ← block m
  if b.m_maxLogOffset < logOffset then
    if ¬increase flag then return some b
    else if m = firstBlockId + blocks.length - 1 then return none
    else
      let b ← block (m + 1)
      return if logOffset ≤ b.m_minLogOffset then some b else none
  else if logOffset < b.m_minLogOffset then
    if increase flag then return some b
    else if m = firstBlockId then return none
    else
      let b ← block (m - 1)
      return if b.m_maxLogOffset ≤ logOffset then some b else none
  else return some b

/-- `databaseCheckpointIterator::seek` over the blocks with the ids from `firstBlockId` on. -/
def seekCheckpoint (firstBlockId : Nat) (blocks : List (LogBlock I)) (flag logOffset : Nat) :
    Exec (Option SeekPos) := do
  let last : Int := firstBlockId + blocks.length - 1
  let (found, m, s, e) ← binarySearch Fault.endless (compareOffsets firstBlockId blocks logOffset)
    (blocks.length + 1) firstBlockId last 0
  if found then
    let b ← tableAt blocks (m - firstBlockId).toNat
    b.seekCheckpoint flag logOffset
  else
    let m := if e < firstBlockId then (firstBlockId : Int) else m
    let m := if last < s then last else m
    match ← neighbour firstBlockId blocks flag logOffset m with
    | none => return none
    | some b => b.seekCheckpoint flag logOffset

end DBStream.Native

/-!
## Seeks by timestamp

`appendingBlockTimestampIterator::seek` of `database/appendingBlock.h` and
`databaseTimestampIterator::seek` of `database/databaseIterator.cpp`, for iterators without a
filter.  `solidBlockTimestampIterator::seek` is `SolidBlockIterator.seekTimestamp`.  The blocks
are those of `CheckpointIterator`: a list, in memory.
-/

namespace DBStream.Native

variable {I : IndexImpl}

/-- The loop `while (next() == status::OK)` of `seekIncrease` and `seekDecrease`: the first record
    it comes to whose time satisfies `found`. -/
def AppendingBlock.seekTimeLoop (b : AppendingBlock I) (flag : Nat) (found : Nat → Bool) :
    Nat → Nat → Exec (Option SeekPos)
  | 0, _ => .error .endless
  | fuel + 1, seekedId => do
    match ← b.stepTo flag seekedId with
    | none => return none
    | some pos =>
      -- `valid()`
      if b.m_recordCount ≤ pos.m_recordId then return none
      else
        let d ← b.getRecordByIdx pos.m_recordId
        if found (RecordHead.timestamp d) then return some pos
        else b.seekTimeLoop flag found fuel pos.m_recordId

/-- `appendingBlockTimestampIterator::seek`: `seekIncrease` or `seekDecrease`. -/
def AppendingBlock.seekTimestamp (b : AppendingBlock I) (flag timestamp : Nat) :
    Exec (Option SeekPos) :=
  if b.m_maxTime < timestamp ∨ timestamp < b.m_minTime then .ok none
  else
    let start := if increase flag then 2 ^ 32 - 1 else b.m_recordCount
    b.seekTimeLoop flag
      (fun t => if increase flag then decide (timestamp ≤ t) else decide (t ≤ timestamp))
      (b.m_recordCount + 1) start

namespace LogBlock

def m_minTime : LogBlock I → Nat
  | .appending b => b.m_minTime
  | .solid b => b.head.m_minTime

def m_maxTime : LogBlock I → Nat
  | .appending b => b.m_maxTime
  | .solid b => b.head.m_maxTime

/-- The seek of the iterator that `databaseTimestampIterator::seek` creates on a block. -/
def seekTimestamp (flag timestamp : Nat) : LogBlock I → Exec (Option SeekPos)
  | .appending b => b.seekTimestamp flag timestamp
  | .solid b => do
    let (it, s) ← SolidBlockIterator.create noPages b flag none ()
    let (ok, it, _) ← SolidBlockIterator.seekTimestamp noPages b flag none timestamp it s
    return if ok then some ⟨b.head.m_blockID, it.m_recordId, it.m_realRecordId⟩ else none

end LogBlock

/-- The loop of `databaseTimestampIterator::seek` from block to block, whatever the direction: past
    the ones with an `m_minTime` behind the target. -/
def timestampBlock (timestamp : Nat) : List (LogBlock I) → Option (LogBlock I)
  | [] => none
  | b :: ahead => if timestamp < b.m_minTime then timestampBlock timestamp ahead else some b

/-- `databaseTimestampIterator::seek` over the blocks from `m_firstBlockId` on. -/
def seekTimestamp (blocks : List (LogBlock I)) (flag timestamp : Nat) : Exec (Option SeekPos) :=
  match timestampBlock timestamp blocks with
  | none => .ok none
  | some b => b.seekTimestamp flag timestamp

end DBStream.Native
