import DBStream.Native.Ref
import DBStream.Native.SolidIterator

/-!
# Pages under their readers

`page::use`, `page::unuse` and `page::freeWhenNoUser` of `database/page.h`,
`solidBlock::getPage` and `getRecord`, and the readers that hold pages:
`solidBlockIterator` with its page cache and `solidBlockIndexIterator`.

A page is known by the id of its block and its number there.  What an index answers is left
open: `value` of an index iterator is given the record number its index holds.  The bytes of
the pages and whether a load succeeds come from a `Disk`.
-/

namespace DBStream.Native

/-- The part of `page` that its users change: the counter, whether the page has an `lru` list and
    is on it, and whether `pageData` is there. -/
structure PageRef where
  _ref : Ref := {}
  lru : Bool := true
  linked : Bool := false
  loaded : Bool := false
  deriving DecidableEq

namespace PageRef

/-- The two loops of `use`: it tries up to ten times to find a value above 0, and then waits for one
    that is not 0. -/
def useLoop : Nat → Ref → Int × Ref
  | 0, r =>
    let (ref, r) := r.use
    if ref = 0 then r.use else (ref, r)
  | n + 1, r =>
    let (ref, r) := r.use
    if 0 < ref then (ref, r) else useLoop n r

def use (p : PageRef) : PageRef :=
  let (ref, r) := useLoop 10 p._ref
  { p with
    _ref := r
    linked := if ref = 1 ∧ p.lru then false else p.linked }

def unuse (p : PageRef) : PageRef :=
  if p.lru then
    let (ref, r) := p._ref.unuseForLru
    if ref = 0 then { p with _ref := Ref.reset, linked := true }
    else if ref < 0 then { p with _ref := Ref.reset, loaded := false }
    else { p with _ref := r }
  else
    let (ref, r) := p._ref.unuse
    if ref < 0 then { p with _ref := Ref.reset, loaded := false } else { p with _ref := r }

def freeWhenNoUser (p : PageRef) : Bool × PageRef :=
  if p._ref.tryUnuseIfZero.1 then (true, { p with _ref := Ref.reset, loaded := false })
  else (false, p)

end PageRef

/-- The file side: whether the `n`-th load succeeds, and the bytes of the pages. -/
structure Disk where
  loads : Nat → Bool
  content : SolidBlock → Nat → List UInt8

/-- The pages of the solid blocks, and the number of loads so far. -/
structure PageTable where
  page : Nat × Nat → PageRef := fun _ => {}
  loads : Nat := 0

namespace PageTable

def put (t : PageTable) (key : Nat × Nat) (p : PageRef) : PageTable :=
  { t with page := fun k => if k = key then p else t.page k }

def use (t : PageTable) (key : Nat × Nat) : PageTable := t.put key (t.page key).use

def unuse (t : PageTable) (key : Nat × Nat) : PageTable := t.put key (t.page key).unuse

end PageTable

/-- The key of a page of a block. -/
def SolidBlock.pageKey (b : SolidBlock) (pageId : Nat) : Nat × Nat := (b.head.m_blockID, pageId)

variable (D : Disk)

/-- `solidBlock::getPage`: whether it answers the page.  `own` fails only while somebody else loads
    the page, and nobody else is there. -/
def PageTable.getPage (b : SolidBlock) (pageId : Nat) (t : PageTable) : Exec (Bool × PageTable) := do
  let _ ← tableAt b.pages pageId
  let key := b.pageKey pageId
  let t := t.use key
  let p := t.page key
  if p.loaded then return (true, t)
  else
    let (own, r) := p._ref.own
    if own then
      let p := { p with _ref := r.share.2 }
      let t := { t with loads := t.loads + 1 }
      if D.loads (t.loads - 1) then return (true, t.put key { p with loaded := true })
      else return (false, t.put key p.unuse)
    else throw .endless

/-- `solidBlock::getRecord(uint64_t)`, for its pages. -/
def PageTable.getRecord (b : SolidBlock) (recordId : Nat) (t : PageTable) : Exec PageTable := do
  let inner := (((recordId : Int) - b.head.m_minRecordId - 1) % (2 ^ 32 : Nat)).toNat
  if b.head.m_recordCount ≤ inner then return t
  else
    let info ← tableAt b.m_recordInfos inner
    let pageId := RecordPosition.pageId info.offset % 2 ^ 16
    let (ok, t) ← t.getPage D b pageId
    return if ok then t.unuse (b.pageKey pageId) else t

/-! ## The cache of an iterator -/

/-- `m_pageCache`: the numbers of the pages in the 16 slots. -/
structure PageCache where
  slots : List (Option Nat)
  size : slots.length = 16

namespace PageCache

def empty : PageCache := ⟨List.replicate 16 none, List.length_replicate⟩

/-- The slot of a page. -/
def get (c : PageCache) (pageId : Nat) : Option Nat :=
  c.slots.get ⟨pageId % 16, by rw [c.size]; omega⟩

def set (c : PageCache) (pageId : Nat) (x : Option Nat) : PageCache where
  slots := c.slots.set (pageId % 16) x
  size := by rw [List.length_set, c.size]

end PageCache

/-- What an iterator moves on: the pages and its cache. -/
structure IterPages where
  table : PageTable
  cache : PageCache

namespace IterPages

/-- The page of `value` comes into its slot: `getPage`, and one `use` more. -/
def fill (b : SolidBlock) (pageId : Nat) (s : IterPages) : Exec (Bool × IterPages) := do
  let (ok, t) ← s.table.getPage D b pageId
  if ok then return (true, ⟨t.use (b.pageKey pageId), s.cache.set pageId (some pageId)⟩)
  else return (false, ⟨t, s.cache.set pageId none⟩)

/-- `solidBlockIterator::value(uint32_t)`. -/
def value (b : SolidBlock) (rid : Nat) (s : IterPages) : Exec (Option (List UInt8) × IterPages) := do
  let info ← tableAt b.m_recordInfos rid
  let pageId := RecordPosition.pageId info.offset
  let record := (D.content b pageId).drop (RecordPosition.offsetInPage info.offset)
  match s.cache.get pageId with
  | some cached =>
    if cached = pageId then return (some record, s)
    else
      let (ok, s) ← fill D b pageId { s with table := s.table.unuse (b.pageKey cached) }
      return (if ok then some record else none, s)
  | none =>
    let (ok, s) ← fill D b pageId s
    return (if ok then some record else none, s)

/-- The loop over `m_pageCache` of `resetBlock` and the destructor. -/
def clear (b : SolidBlock) (s : IterPages) : IterPages where
  table := s.cache.slots.foldl (fun t slot =>
    match slot with
    | some pageId => t.unuse (b.pageKey pageId)
    | none => t) s.table
  cache := .empty

end IterPages

/-- The page side of `solidBlockIterator`. -/
def pageReader : PageReader IterPages where
  value := IterPages.value D
  clear b s := .ok (s.clear b)

/-! ## Readers -/

/-- What a `solidBlockIterator` of either kind does without changing its block. -/
inductive IterOp where
  | next
  | seekTimestamp (timestamp : Nat)
  | seekCheckpoint (logOffset : Nat)
  | seekRecordId (recordId : Nat)

/-- The iterator after an operation. -/
def IterOp.run {σ : Type} (P : PageReader σ) (b : SolidBlock) (flag : Nat) (filter : Option Filter)
    (it : SolidBlockIterator) (s : σ) : IterOp → Exec (SolidBlockIterator × σ)
  | .next => do
    let (_, it, s) ← SolidBlockIterator.next P b flag filter it s
    return (it, s)
  | .seekTimestamp timestamp => do
    let (_, it, s) ← SolidBlockIterator.seekTimestamp P b flag filter timestamp it s
    return (it, s)
  | .seekCheckpoint logOffset => do
    let (_, it, s) ← SolidBlockIterator.seekCheckpoint P b flag filter logOffset it s
    return (it, s)
  | .seekRecordId recordId => do
    let (_, it, s) ← SolidBlockIterator.seekRecordId P b flag filter recordId it s
    return (it, s)

/-- A `solidBlockIterator`. -/
structure IterReader where
  m_block : SolidBlock
  flag : Nat
  filter : Option Filter
  it : SolidBlockIterator
  cache : PageCache

namespace IterReader

/-- The constructor. -/
def create (b : SolidBlock) (flag : Nat) (filter : Option Filter) (t : PageTable) :
    Exec (IterReader × PageTable) := do
  let (it, s) ← SolidBlockIterator.create (pageReader D) b flag filter ⟨t, .empty⟩
  return (⟨b, flag, filter, it, s.cache⟩, s.table)

/-- `next` or a seek. -/
def move (op : IterOp) (r : IterReader) (t : PageTable) : Exec (IterReader × PageTable) := do
  let (it, s) ← op.run (pageReader D) r.m_block r.flag r.filter r.it ⟨t, r.cache⟩
  return ({ r with it := it, cache := s.cache }, s.table)

def value (r : IterReader) (t : PageTable) : Exec (IterReader × PageTable) := do
  let (_, s) ← IterPages.value D r.m_block r.it.m_recordId ⟨t, r.cache⟩
  return ({ r with cache := s.cache }, s.table)

def resetBlock (b : SolidBlock) (r : IterReader) (t : PageTable) : Exec (IterReader × PageTable) := do
  let (it, s) ← SolidBlockIterator.resetBlock (pageReader D) b r.flag r.filter r.m_block r.it
    ⟨t, r.cache⟩
  return ({ r with m_block := b, it := it, cache := s.cache }, s.table)

/-- The destructor. -/
def destroy (r : IterReader) (t : PageTable) : PageTable :=
  (IterPages.clear r.m_block ⟨t, r.cache⟩).table

end IterReader

/-- A `solidBlockIndexIterator`: the page of its index and `m_currentPage`. -/
structure IndexReader where
  m_block : SolidBlock
  indexPage : Nat
  m_currentPage : Option Nat

namespace IndexReader

/-- `createIndexIterator`, once `getIndex` has found the page of the index.  The index on the stack
    is copied into the iterator and then destroyed. -/
def create (b : SolidBlock) (indexPage : Nat) (t : PageTable) :
    Exec (Option IndexReader × PageTable) := do
  let (ok, t) ← t.getPage D b indexPage
  if ok then
    let key := b.pageKey indexPage
    return (some ⟨b, indexPage, none⟩, (t.use key).unuse key)
  else return (none, t)

/-- `m_currentPage = getPage(pageId)`. -/
def load (pageId : Nat) (r : IndexReader) (t : PageTable) : Exec (IndexReader × PageTable) := do
  let (ok, t) ← t.getPage D r.m_block pageId
  return ({ r with m_currentPage := if ok then some pageId else none }, t)

/-- `value`, when the index is at the record number `recordId`. -/
def value (recordId : Nat) (r : IndexReader) (t : PageTable) : Exec (IndexReader × PageTable) := do
  let info ← tableAt r.m_block.m_recordInfos recordId
  let pageId := RecordPosition.pageId info.offset
  match r.m_currentPage with
  | some current =>
    if current = pageId then return (r, t)
    else r.load D pageId (t.unuse (r.m_block.pageKey current))
  | none => r.load D pageId t

/-- The destructor. -/
def destroy (r : IndexReader) (t : PageTable) : PageTable :=
  let t := match r.m_currentPage with
    | some current => t.unuse (r.m_block.pageKey current)
    | none => t
  t.unuse (r.m_block.pageKey r.indexPage)

end IndexReader

end DBStream.Native
