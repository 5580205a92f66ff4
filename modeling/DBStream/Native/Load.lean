import DBStream.Native.Database
import DBStream.Native.Recovery

/-!
# Loading the database after a restart

`load`, `recoveryFromRedo`, `pickRedo` and `removeBlock` of `database/database.cpp`.

A `block*` is the id of the block: every block that is linked into the chain is in
`m_blocks` under its id.  `origin` says which file a block was made from; the code does not
keep it.  Removing, writing and renaming of files is logged.

The eviction of recovered pages from memory, the statistics, `m_last` and the assertions in
the destructors are left out.
-/

namespace DBStream.Native

variable {I : IndexImpl}

/-- The files a crash has left: the ids of the block files and of the redo files in the order of
    `std::set`, the head `loadFromFile` reads from a block file (`none` if it cannot), and the bytes
    of the redo files. -/
structure Directory where
  ids : List Nat
  redos : List Nat
  head : Nat → Option BlockHead
  redo : Nat → List UInt8
  ids_sorted : ids.Pairwise (· < ·)
  redos_sorted : redos.Pairwise (· < ·)
  ids_lt : ∀ id ∈ ids, id < 2 ^ 32
  redos_lt : ∀ id ∈ redos, id < 2 ^ 32

/-- A block of which only the redo file is left. -/
def Directory.RedoOnly (dir : Directory) (id : Nat) : Prop := id ∈ dir.redos ∧ id ∉ dir.ids

/-- `checkFileExist` of a block file: `access` returns `0` for a file that exists, else `-1`. -/
def Directory.checkFileExist (dir : Directory) (id : Nat) : Int := if id ∈ dir.ids then 0 else -1

/-- What the environment answers for each block: to the recovery from its redo file, and whether
    its block file can be written. -/
structure LoadIo where
  recovery : Nat → RecoveryIo
  written : Nat → Bool
  fuel : Nat

/-- Where a block in memory comes from. -/
inductive Origin where
  | blockFile
  | redoFile
  | fresh
  deriving DecidableEq

/-- The fields of a block that `load` uses. -/
structure LoadedBlock where
  m_blockID : Nat
  m_prevBlockID : Nat
  m_minRecordId : Nat
  m_recordCount : Nat
  m_maxTxnId : Nat
  prev : Option Nat
  next : Option Nat
  origin : Origin
  deriving DecidableEq

/-- A block with this head, not linked yet. -/
def LoadedBlock.ofHead (h : BlockHead) (origin : Origin) : LoadedBlock where
  m_blockID := h.m_blockID
  m_prevBlockID := h.m_prevBlockID
  m_minRecordId := h.m_minRecordId
  m_recordCount := h.m_recordCount
  m_maxTxnId := h.m_maxTxnId
  prev := none
  next := none
  origin := origin

/-! ## Replaying the redo files -/

/-- What the scan of the redo files has done: the blocks in memory (`recoveried`), the redo files
    removed and the block files written. -/
structure RedoScan where
  recoveried : List LoadedBlock
  removed : List Nat
  written : List (Nat × BlockHead)

/-- The recovery of one block: the value of `appendingBlock::recoveryFromRedo` and the block. -/
def replayRedo (Γ : MetaDataCollection I) (cfg : Config) (env : LoadIo) (dir : Directory)
    (id : Nat) : Exec (Int × AppendingBlock I) :=
  let b : AppendingBlock I := .create id { appending := true } cfg.m_blockDefaultSize
    cfg.m_redoFlushDataSize cfg.m_redoFlushPeriod 0
  match (b.setRedo { b.redo with file := some (dir.redo id) }).recoveryFromRedo Γ env.fuel
      (env.recovery id) with
  | .error e => .error e
  | .ok none => .error .endless
  | .ok (some x) => .ok x

/-- `database::recoveryFromRedo`.  What was done before a fault stays done, so the scan is returned
    next to the result. -/
def recoveryFromRedo (Γ : MetaDataCollection I) (cfg : Config) (env : LoadIo) (dir : Directory) :
    List Nat → RedoScan → RedoScan × Exec Int
  | [], scan => (scan, .ok 0)
  | id :: redos, scan =>
    if dir.checkFileExist id < 0 then
      recoveryFromRedo Γ cfg env dir redos { scan with removed := scan.removed ++ [id] }
    else
      match replayRedo Γ cfg env dir id with
      | .error e => (scan, .error e)
      | .ok (ret, b) =>
        if ret = -1 then recoveryFromRedo Γ cfg env dir redos scan
        else if ret = 1 then
          ({ scan with
            recoveried := scan.recoveried ++ [LoadedBlock.ofHead b.solidHead .redoFile] }, .ok 1)
        else
          match b.toSolidBlock with
          | .error e => (scan, .error e)
          | .ok sb =>
            if env.written id then
              recoveryFromRedo Γ cfg env dir redos {
                recoveried := scan.recoveried ++ [LoadedBlock.ofHead sb.head .redoFile]
                removed := scan.removed ++ [id]
                written := scan.written ++ [(id, sb.head)] }
            else recoveryFromRedo Γ cfg env dir redos scan

/-! ## Building the chain -/

/-- The state of `load`: `m_blocks` with the largest id ever set, the ids in use, the last block
    linked, the recovered blocks that are not in the chain, and the files renamed or removed. -/
structure LoadState where
  m_blocks : Nat → Option LoadedBlock
  maxId : Nat
  m_firstBlockId : Nat
  m_lastBlockId : Nat
  prevBlock : Option Nat
  prev : Int
  recoveried : List LoadedBlock
  bak : List Nat
  redoBak : List Nat
  removedFiles : List Nat

namespace LoadState

variable (st : LoadState)

/-- Read a block through its pointer. -/
def block (id : Nat) : Exec LoadedBlock :=
  match st.m_blocks id with
  | none => .error .dangling
  | some b => .ok b

/-- `m_blocks.set`: an entry that is there stays. -/
def set (b : LoadedBlock) : LoadState :=
  match st.m_blocks b.m_blockID with
  | some _ => st
  | none => { st with
      m_blocks := Function.update st.m_blocks b.m_blockID (some b)
      maxId := max st.maxId b.m_blockID }

/-- Change a block that is in the chain. -/
def modify (id : Nat) (f : LoadedBlock → LoadedBlock) : LoadState :=
  { st with m_blocks := Function.update st.m_blocks id ((st.m_blocks id).map f) }

/-- `m_blocks.end()`. -/
def last : Option LoadedBlock := st.m_blocks st.maxId

/-- `removeBlock`: the block before it gets its `prev` overwritten, not its `next`. -/
def removeBlock (id : Nat) : Exec LoadState := do
  let b ← st.block id
  let st₁ := match b.prev with
    | none => st
    | some p => st.modify p fun c => { c with prev := b.next }
  let st₂ := match b.next with
    | none => st₁
    | some n => st₁.modify n fun c => { c with prev := b.prev }
  return { st₂ with
    m_blocks := Function.update st₂.m_blocks id none
    removedFiles := st₂.removedFiles ++ [id] }

/-- The loop of `pickRedo` over the recovered blocks behind `from`. -/
def pickBlocks (upTo : Option LoadedBlock) : List LoadedBlock → Nat → LoadState → Bool × LoadState
  | [], fromId, st => (upTo.all fun b => b.m_prevBlockID = fromId, st)
  | r :: rest, fromId, st =>
    if upTo.all fun b => r.m_blockID < b.m_blockID then
      if r.m_prevBlockID = fromId then
        let st := (st.modify fromId fun c => { c with next := some r.m_blockID }).set
          { r with prev := some fromId }
        pickBlocks upTo rest r.m_blockID
          { st with recoveried := st.recoveried.filter fun c => c.m_blockID ≠ r.m_blockID }
      else (false, st)
    else (upTo.all fun b => b.m_prevBlockID = fromId, st)

/-- `pickRedo`: whether the gap between the two blocks could be closed. -/
def pickRedo (fromId : Nat) (upTo : Option LoadedBlock) : Bool × LoadState :=
  match st.recoveried.filter fun r => fromId < r.m_blockID with
  | [] => (false, st)
  | r :: rest => pickBlocks upTo (r :: rest) fromId st

/-- The walk back from a block to one with an id of at most `bound`. -/
def walkBack (bound : Nat) : Nat → Nat → Exec Nat
  | 0, _ => .error .endless
  | fuel + 1, id => do
    let b ← st.block id
    if bound < b.m_blockID then do
      let p ← deref b.prev
      walkBack bound fuel p
    else return id

/-- The removal of the blocks with an id above `bound`, from the last one down. -/
def removeAbove (bound : Nat) : Nat → LoadState → Option Nat → Exec (LoadState × Nat)
  | 0, _, _ => .error .endless
  | fuel + 1, st, prevBlock => do
    let id ← deref prevBlock
    let b ← st.block id
    if bound < b.m_blockID then do
      let st ← st.removeBlock id
      removeAbove bound fuel st b.prev
    else return (st, id)

/-- The block of a file becomes the last one of the chain. -/
def append (b : LoadedBlock) (id : Nat) : LoadState :=
  { st.set { b with m_blockID := id, prev := st.prevBlock } with
    prev := id
    prevBlock := some id
    m_lastBlockId := id }

/-- How `load` goes on with a block file. -/
inductive Turn where
  | next (st : LoadState)
  | stop (st : LoadState)
  | fail (st : LoadState)

/-- The link from the last block to a block that continues it, after the files between them were
    repaired where ids are missing. -/
def link (fuel : Nat) (b : LoadedBlock) (rest : List Nat) : Exec Turn := do
  let prevBlock ← deref st.prevBlock
  if (b.m_prevBlockID : Int) = st.prev then
    return .next (st.modify prevBlock fun c => { c with next := some b.m_blockID })
  else if (b.m_prevBlockID : Int) < st.prev then
    let tmp ← st.walkBack b.m_prevBlockID fuel prevBlock
    let (ok, st) := if tmp = b.m_prevBlockID then (true, st) else st.pickRedo prevBlock (some b)
    if ok then
      let (st, prevBlock) ← removeAbove b.m_prevBlockID fuel st (some prevBlock)
      return .next { st.modify prevBlock fun c => { c with next := some b.m_blockID } with
        prevBlock := some prevBlock }
    else return .fail st
  else
    let (ok, st) := st.pickRedo prevBlock (some b)
    if ok then return .next (st.modify prevBlock fun c => { c with next := some b.m_blockID })
    else return .stop { st with bak := st.bak ++ rest }

/-- The loop of `load` over the block files; `false` if it returns `-1`. -/
def loadIds (dir : Directory) (scan : RedoScan) (fuel : Nat) :
    List Nat → LoadState → Exec (Bool × LoadState)
  | [], st => .ok (true, st)
  | id :: ids, st =>
    match ((scan.written.find? fun x => x.1 = id).map Prod.snd).orElse fun _ => dir.head id with
    | none => .ok (true, { st with bak := st.bak ++ id :: ids })
    | some h => do
      let b := { LoadedBlock.ofHead h .blockFile with m_blockID := id }
      if st.prev = -1 then
        loadIds dir scan fuel ids ({ st with m_firstBlockId := id }.append b id)
      else
        match ← st.link fuel b ids with
        | .next st => loadIds dir scan fuel ids (st.append b id)
        | .stop st => return (true, st)
        | .fail st => return (false, st)

/-- No block is in the chain. -/
def empty (recoveried : List LoadedBlock) : LoadState where
  m_blocks := fun _ => none
  maxId := 0
  m_firstBlockId := 0
  m_lastBlockId := 0
  prevBlock := none
  prev := -1
  recoveried := recoveried
  bak := []
  redoBak := []
  removedFiles := []

/-- The state in which the chain is built, with the first recovered block when it lies before all
    block files. -/
def start (dir : Directory) (scan : RedoScan) : LoadState :=
  match scan.recoveried with
  | [] => empty []
  | r :: rest =>
    if dir.ids.all fun id => r.m_blockID < id then
      { (empty rest).set r with
        prevBlock := some r.m_blockID
        prev := r.m_blockID
        m_firstBlockId := r.m_blockID
        m_lastBlockId := r.m_blockID }
    else empty (r :: rest)

/-- The recovered blocks behind the last block file. -/
def pickTail (dir : Directory) : Exec LoadState :=
  if st.recoveried ≠ [] ∧ dir.redos.getLast?.any fun id => st.m_lastBlockId < id then do
    let prevBlock ← deref st.prevBlock
    let (_, st) := st.pickRedo prevBlock none
    return { st with redoBak := st.redoBak ++ st.recoveried.map LoadedBlock.m_blockID }
  else return st

/-- Where the database goes on: the next transaction id and the next record id. -/
def nextIds : LoadState × Nat × Nat :=
  match st.last with
  | some b => (st, b.m_maxTxnId + 1, b.m_minRecordId + b.m_recordCount)
  | none => ({ st with m_firstBlockId := 0, m_lastBlockId := 0 }, 1, 1)

/-- The new current block behind the chain. -/
def createCurrent (recordId : Nat) : LoadState :=
  let id := st.m_lastBlockId + 1
  let current : LoadedBlock := {
    m_blockID := id
    m_prevBlockID := (st.last.map LoadedBlock.m_blockID).getD 0
    m_minRecordId := recordId
    m_recordCount := 0
    m_maxTxnId := 0
    prev := st.last.map LoadedBlock.m_blockID
    next := none
    origin := .fresh }
  let linked := match st.last with
    | some b => st.modify b.m_blockID fun c => { c with next := some id }
    | none => st
  { linked.set current with
    m_lastBlockId := id
    m_firstBlockId := if st.m_firstBlockId = 0 then 1 else st.m_firstBlockId }

end LoadState

/-- What `load` leaves: the scan of the redo files and, if it gets to its end, whether it succeeded
    and the chain. -/
def load (Γ : MetaDataCollection I) (cfg : Config) (env : LoadIo) (dir : Directory) :
    RedoScan × Exec (Bool × LoadState) :=
  let (scan, ret) := recoveryFromRedo Γ cfg env dir dir.redos ⟨[], [], []⟩
  (scan, do
    let _ ← ret
    let (ok, st) ← LoadState.loadIds dir scan env.fuel dir.ids (LoadState.start dir scan)
    if ok then
      let st ← st.pickTail dir
      let (st, _, recordId) := st.nextIds
      return (true, st.createCurrent recordId)
    else return (false, st))

end DBStream.Native
