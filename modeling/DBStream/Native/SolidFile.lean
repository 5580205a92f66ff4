import DBStream.ForStd.Codec
import DBStream.ForStd.DiskImage
import DBStream.Native.SolidBlock

/-!
# The file of a solid block

`writeToFile`, `writepage`, `loadFirstPage` and `loadPage` of `database/solidBlock.cpp`,
`getPage` of `database/solidBlock.h` and `loadFromFile` of `database/block.cpp`.

A file starts with the packed head of the block (`m_version` to `m_crc`, 102 bytes) and the
first page behind it.  The first page holds the tables one behind the other:

| table | entries | bytes each |
|---|---|---|
| `m_tableInfo` | `m_tableCount` | 20 |
| `m_recordInfos` | `m_recordCount` | 25 |
| `m_recordIdOrderyTable` | `m_recordCount` | 4 |
| `pageOffsets` | `m_pageCount + 1` | 8 |
| `pageInfo` | `m_pageCount` | 40 |

The other pages follow at multiples of 512.  LZ4 is a parameter.  The thread-local compress
buffer, the file name, the reference counts and the locks are left out, and reads do not fail
on bytes that are in the file.
-/

namespace DBStream.Native

/-! ## Checksum and compression -/

/-- One bit of the CRC-32C of `_mm_crc32_u8`. -/
def crc32cBit (crc : UInt32) : UInt32 :=
  if crc &&& 1 = 1 then (crc >>> 1) ^^^ 0x82F63B78 else crc >>> 1

/-- `_mm_crc32_u8`. -/
def crc32cByte (crc : UInt32) (b : UInt8) : UInt32 :=
  Nat.iterate crc32cBit 8 (crc ^^^ b.toUInt32)

/-- `hwCrc32c(0, buf, len)`. -/
def hwCrc32c (d : List UInt8) : Nat :=
  if d = [] then 0 else (d.foldl crc32cByte 0xFFFFFFFF ^^^ 0xFFFFFFFF).toNat

theorem hwCrc32c_lt (d : List UInt8) : hwCrc32c d < 256 ^ 4 := by
  unfold hwCrc32c
  split
  · omega
  · exact UInt32.toNat_lt _

def LZ4_MAX_INPUT_SIZE : Nat := 0x7E000000

def LZ4_COMPRESSBOUND (n : Nat) : Nat := if LZ4_MAX_INPUT_SIZE < n then 0 else n + n / 255 + 16

/-- `LZ4_compress_default` into a buffer of `LZ4_COMPRESSBOUND` bytes, and `LZ4_decompress_safe` with
    the capacity of the destination (`none` for a negative result).

    Decompression undoes compression.  An empty source is an error.  A sequence of a zero token and a
    zero offset is not rejected by `lz4.c`: it puts four zeros (`LZ4_write32(op, 0)`, or the zeros of
    the source that were copied ahead). -/
structure Lz4 where
  compress : List UInt8 → List UInt8
  decompress : List UInt8 → Nat → Option (List UInt8)
  decompress_compress : ∀ d, d.length ≤ LZ4_MAX_INPUT_SIZE →
    decompress (compress d) d.length = some d
  length_compress : ∀ d, d.length ≤ LZ4_MAX_INPUT_SIZE →
    (compress d).length ≤ LZ4_COMPRESSBOUND d.length
  decompress_nil : ∀ n, decompress [] n = none
  decompress_zeros : ∀ k d n out, List.replicate (3 * k + 2) 0 <+: d → decompress d n = some out →
    List.replicate (4 * k) 0 <+: out

/-! ## Layouts -/

/-- The packed `tableDataInfo`. -/
def TableDataInfo.codec : Codec TableDataInfo :=
  .ofWords [8, 4, 4, 2, 2]
    (fun t => [t.tableId, t.recordCount, t.recordIdsOffset, t.pageCount, t.firstPageId])
    (fun ws => ⟨ws.getD 0 0, ws.getD 1 0, ws.getD 2 0, ws.getD 3 0, ws.getD 4 0⟩)
    (fun _ => rfl) (fun _ => rfl)

/-- The packed `recordGeneralInfo`. -/
def RecordGeneralInfo.codec : Codec RecordGeneralInfo :=
  .ofWords [1, 4, 4, 8, 8]
    (fun r => [r.recordType, r.tableIndex, r.offset, r.timestamp, r.logOffset])
    (fun ws => ⟨ws.getD 0 0, ws.getD 1 0, ws.getD 2 0, ws.getD 3 0, ws.getD 4 0⟩)
    (fun _ => rfl) (fun _ => rfl)

/-- The part of `page` in front of `_ref`. -/
def PageInfo.codec : Codec PageInfo :=
  .ofWords [4, 4, 4, 4, 24]
    (fun p => [p.pageId, p.pageUsedSize, p.pageSize, p.crc, p.lru])
    (fun ws => ⟨ws.getD 0 0, ws.getD 1 0, ws.getD 2 0, ws.getD 3 0, ws.getD 4 0⟩)
    (fun _ => rfl) (fun _ => rfl)

/-- The packed head, `m_version` to `m_crc`. -/
def BlockHead.codec : Codec BlockHead :=
  .ofWords [4, 4, 4, 4, 8, 8, 8, 8, 8, 8, 4, 4, 4, 4, 2, 4, 4, 4, 4, 4]
    (fun h => [h.m_version, h.m_flag.toNat, h.m_blockID, h.m_prevBlockID, h.m_tableID, h.m_minTime,
      h.m_maxTime, h.m_minLogOffset, h.m_maxLogOffset, h.m_minRecordId, h.m_recordCount,
      h.m_minTxnId, h.m_maxTxnId, h.m_tableCount, h.m_pageCount, h.m_solidBlockHeadPageRawSize,
      h.m_solidBlockHeadPageSize, h.m_rawSize, h.m_fileSize, h.m_crc])
    (fun ws => ⟨ws.getD 0 0, .ofNat (ws.getD 1 0), ws.getD 2 0, ws.getD 3 0, ws.getD 4 0,
      ws.getD 5 0, ws.getD 6 0, ws.getD 7 0, ws.getD 8 0, ws.getD 9 0, ws.getD 10 0, ws.getD 11 0,
      ws.getD 12 0, ws.getD 13 0, ws.getD 14 0, ws.getD 15 0, ws.getD 16 0, ws.getD 17 0,
      ws.getD 18 0, ws.getD 19 0⟩)
    (fun _ => rfl) (fun h => by
      obtain ⟨v, flag, _⟩ := h
      show BlockHead.mk v (BlockFlag.ofNat flag.toNat) _ _ _ _ _ _ _ _ _ _ _ _ _ _ _ _ _ _ = _
      rw [BlockFlag.ofNat_toNat]
      rfl)

/-- `offsetof(solidBlock, m_fd) - offsetof(solidBlock, m_version)`. -/
def headSize : Nat := 102

/-- `ALIGN(x, 512)`. -/
def align (x : Nat) : Nat := (x + 511) / 512 * 512

/-- The size of the buffer that `bufferPool::alloc` hands out. -/
def poolSize (n : Nat) : Nat :=
  ([128, 256, 512, 4 * 1024, 8 * 1024, 12 * 1024, 16 * 1024, 32 * 1024, 64 * 1024, 128 * 1024,
    512 * 1024, 512 * 1024 + 512 * 1024 / 255 + 16].find? fun size => n ≤ size).getD n

/-! ## Writing -/

/-- The answers of the system calls of `writeToFile`: `open` of the temporary file, the seeks, the
    write of each page, of the first page and of the head, `fsync` and `rename`. -/
structure FileIo where
  openFd : Int
  seekOk : Bool
  pageWritten : Nat → Bool
  firstPageWritten : Bool
  headWritten : Bool
  synced : Bool
  renamed : Bool

/-- Every system call succeeds. -/
structure FileIo.Works (io : FileIo) : Prop where
  opened : fileHandleValid io.openFd = true
  seekOk : io.seekOk = true
  pageWritten : ∀ i, io.pageWritten i = true
  firstPageWritten : io.firstPageWritten = true
  headWritten : io.headWritten = true
  synced : io.synced = true
  renamed : io.renamed = true

/-- The pieces of at most `LZ4_MAX_INPUT_SIZE` bytes in which a larger page is compressed. -/
def chunks (d : List UInt8) : List (List UInt8) :=
  (List.range ((d.length + LZ4_MAX_INPUT_SIZE - 1) / LZ4_MAX_INPUT_SIZE)).map fun i =>
    d.slice (i * LZ4_MAX_INPUT_SIZE) LZ4_MAX_INPUT_SIZE

/-- The bytes `writepage` puts into the file, and the size it returns.  A page that has to be
    compressed in pieces is not written at all. -/
def writeData (lz4 : Lz4) (compress : Bool) (f : DiskImage) (d : List UInt8) (offset : Nat) :
    Nat × DiskImage :=
  if compress then
    if LZ4_MAX_INPUT_SIZE < d.length then
      ((4 + ((chunks d).map fun c => (lz4.compress c).length).sum) % 2 ^ 32, f)
    else ((lz4.compress d).length, f.write offset (lz4.compress d))
  else (d.length, f.write offset d)

/-- The `crc` that `writepage` sets: zero stands for a compressed page. -/
def writtenCrc (compress : Bool) (d : List UInt8) : Nat := if compress then 0 else hwCrc32c d

/-- What the loop over the pages leaves: the pages with their `crc`, the offsets, the end of the
    last page and the file. -/
structure PagesWritten where
  pages : List SolidPage
  offsets : List Nat
  pos : Nat
  image : DiskImage

/-- The loop of `writeToFile` over the pages; `none` if a page could not be written. -/
def writePages (lz4 : Lz4) (io : FileIo) (compress : Bool) :
    List SolidPage → Nat → Nat → DiskImage → Exec (Option PagesWritten)
  | [], _, pos, f => .ok (some ⟨[], [], pos, f⟩)
  | p :: ps, pageIdx, pos, f =>
    if p.info.pageId = pageIdx then do
      let d ← deref p.pageData
      let (size, f) := writeData lz4 compress f d (align pos)
      if io.seekOk ∧ io.pageWritten pageIdx then
        match ← writePages lz4 io compress ps (pageIdx + 1) (align pos + size) f with
        | none => return none
        | some w => return some {
            pages := { p with info := { p.info with crc := writtenCrc compress d } } :: w.pages
            offsets := pos :: w.offsets
            pos := w.pos
            image := w.image }
      else return none
    else .error .assertFailed

namespace SolidBlock

variable (b : SolidBlock)

/-- The bytes of the first page. -/
def firstPage : List UInt8 :=
  TableDataInfo.codec.encodeAll b.m_tableInfo ++
    (RecordGeneralInfo.codec.encodeAll b.m_recordInfos ++
      ((Codec.word 4).encodeAll b.m_recordIdOrderyTable ++
        ((Codec.word 8).encodeAll b.pageOffsets ++ PageInfo.codec.encodeAll b.pageInfo)))

/-- The `crc` fields of `pageInfo` after the pages were written. -/
def withPages (w : PagesWritten) : SolidBlock :=
  { b with
    pages := w.pages
    pageInfo := b.pageInfo.zipWith (fun info p => { info with crc := p.info.crc }) w.pages
    pageOffsets := w.offsets ++ [w.pos] }

/-- `writepage` sets the `crc` of page `0` in `pageInfo` also for the first page, whose `pageId` is
    `0`.  Without any page this is behind the first page: in the rest of its buffer, or behind it. -/
def setFirstCrc (crc : Nat) : Exec SolidBlock :=
  match b.pageInfo with
  | info :: infos => .ok { b with pageInfo := { info with crc := crc } :: infos }
  | [] =>
    if b.firstPage.length + 16 ≤ poolSize b.firstPage.length then .ok b else .error .outOfBounds

/-- The head as it is written. -/
def writtenHead (firstPageSize rawSize fileSize : Nat) : BlockHead :=
  let h := { b.head with
    m_solidBlockHeadPageRawSize := b.firstPage.length % 2 ^ 32
    m_solidBlockHeadPageSize := firstPageSize % 2 ^ 32
    m_rawSize := rawSize % 2 ^ 32
    m_fileSize := fileSize % 2 ^ 32 }
  { h with m_crc := hwCrc32c ((BlockHead.codec.encode h).take (headSize - 4)) }

/-- `solidBlock::writeToFile`: the block and the file, or `none` for `-1`.  A block that is flushed
    is not written again. -/
def writeToFile (lz4 : Lz4) (io : FileIo) : Exec (Option (SolidBlock × Option DiskImage)) :=
  if b.head.m_flag.flushed then .ok (some (b, none))
  else if fileHandleValid io.openFd then do
    let compress := b.head.m_flag.compress
    let start := align (headSize + LZ4_COMPRESSBOUND b.firstPage.length)
    match ← writePages lz4 io compress b.pages 0 start .empty with
    | none => return none
    | some w =>
      let b₁ := b.withPages w
      let b₂ ← b₁.setFirstCrc (writtenCrc compress b₁.firstPage)
      -- a result of `-1` is not checked
      let (size, f) := if io.seekOk ∧ io.firstPageWritten then
          writeData lz4 compress w.image b₂.firstPage headSize
        else (2 ^ 32 - 1, w.image)
      let rawSize := headSize + (b.pages.map fun p => p.info.pageUsedSize).sum + b₂.firstPage.length
      let h := b₂.writtenHead size rawSize w.pos
      if io.seekOk ∧ io.headWritten ∧ io.synced ∧ io.renamed then
        return some ({ b₂ with head := { h with m_flag := { h.m_flag with flushed := true } } },
          some (f.write 0 (BlockHead.codec.encode h)))
      else return none
  else return none

end SolidBlock

/-! ## Reading -/

/-- The loop of `loadPage` over the pieces of a large page; it does not advance in the source. -/
def unpackChunks (lz4 : Lz4) (data : List UInt8) (used arraySize : Nat) :
    List Nat → List UInt8 → Exec (Option (List UInt8))
  | [], out => .ok (some out)
  | idx :: rest, out =>
    let realData := data.drop (arraySize * 4)
    let size := LE.nat (data.slice (idx * 4) 4)
    if data.length < idx * 4 + 4 ∨ realData.length < size then .error .outOfBounds
    else
      match lz4.decompress (realData.take size) (used - out.length) with
      | none => .ok none
      | some d => unpackChunks lz4 data used arraySize rest (out ++ d)

/-- The decompression in `loadPage`. -/
def unpack (lz4 : Lz4) (data : List UInt8) (used : Nat) : Exec (Option (List UInt8)) :=
  if LZ4_MAX_INPUT_SIZE < used then
    let arraySize := (used + LZ4_MAX_INPUT_SIZE - 1) / LZ4_MAX_INPUT_SIZE
    unpackChunks lz4 data used arraySize (List.range arraySize) []
  else .ok (lz4.decompress data used)

/-- `loadPage`: the bytes of a page with this `crc` and `pageUsedSize`, or `none` for `-1`. -/
def loadPage (lz4 : Lz4) (f : DiskImage) (crc used size offset : Nat) :
    Exec (Option (List UInt8)) :=
  match f.read offset size with
  | none => .ok none
  | some d =>
    if crc ≠ 0 then .ok (if hwCrc32c d = crc then some d else none)
    else unpack lz4 d used

/-- `loadFromFile` with `loadBlockInfo`: the head of block `id`, or `none` for `nullptr`. -/
def loadFromFile (f : DiskImage) (id : Nat) : Option BlockHead :=
  match f.read 0 headSize with
  | none => none
  | some d =>
    let h := BlockHead.codec.decode d
    if h.m_blockID = id ∧ hwCrc32c (d.take (headSize - 4)) = h.m_crc then some h else none

/-- The tables of the first page `d`, read one behind the other. -/
def parseFirstPage (h : BlockHead) (d : List UInt8) : SolidBlock :=
  let d₁ := d.drop (h.m_tableCount * TableDataInfo.codec.size)
  let d₂ := d₁.drop (h.m_recordCount * RecordGeneralInfo.codec.size)
  let d₃ := d₂.drop (h.m_recordCount * (Codec.word 4).size)
  let d₄ := d₃.drop ((h.m_pageCount + 1) * (Codec.word 8).size)
  { head := { h with m_flag := { h.m_flag with flushed := true } }
    m_tableInfo := TableDataInfo.codec.decodeAll h.m_tableCount d
    m_recordInfos := RecordGeneralInfo.codec.decodeAll h.m_recordCount d₁
    m_recordIdOrderyTable := (Codec.word 4).decodeAll h.m_recordCount d₂
    pageOffsets := (Codec.word 8).decodeAll (h.m_pageCount + 1) d₃
    -- the pointer is not set
    pageInfo := []
    pages := (PageInfo.codec.decodeAll h.m_pageCount d₄).map fun info =>
      { info := info, pageData := none } }

/-- The size the tables of the first page need. -/
def tablesSize (h : BlockHead) : Nat :=
  h.m_tableCount * TableDataInfo.codec.size + h.m_recordCount * RecordGeneralInfo.codec.size +
    h.m_recordCount * (Codec.word 4).size + (h.m_pageCount + 1) * (Codec.word 8).size +
    h.m_pageCount * PageInfo.codec.size

/-- `loadFirstPage` of a block with a loaded head, or `none` for `-1`.  The bytes of the page that
    the decompression did not fill are read all the same. -/
def loadFirstPage (lz4 : Lz4) (f : DiskImage) (h : BlockHead) : Exec (Option SolidBlock) := do
  match ← loadPage lz4 f 0 h.m_solidBlockHeadPageRawSize h.m_solidBlockHeadPageSize headSize with
  | none => return none
  | some d =>
    if h.m_solidBlockHeadPageRawSize < tablesSize h then return none
    else if d.length < tablesSize h then throw .uninitialized
    else return some (parseFirstPage h d)

/-- A block that is opened anew: its head and its first page. -/
def reload (lz4 : Lz4) (f : DiskImage) (id : Nat) : Exec (Option SolidBlock) :=
  match loadFromFile f id with
  | none => .ok none
  | some h => loadFirstPage lz4 f h

namespace SolidBlock

/-- The call of `loadPage` in `getPage`. -/
def pageFromFile (lz4 : Lz4) (f : DiskImage) (b : SolidBlock) (pageId : Nat) :
    Exec (Option (List UInt8)) :=
  match b.pages[pageId]?, b.pageOffsets[pageId]?, b.pageOffsets[pageId + 1]? with
  | some p, some start, some stop =>
    loadPage lz4 f p.info.crc p.info.pageUsedSize (stop - align start) (align start)
  | _, _, _ => .error .outOfBounds

/-- A page is asked for, or its bytes are given back (`unuse`, `freeWhenNoUser`). -/
inductive PageCall where
  | get (pageId : Nat)
  | free (pageId : Nat)
  deriving DecidableEq

/-- The bytes of a page in memory. -/
def setPageData (b : SolidBlock) (pageId : Nat) (data : Option (List UInt8)) : SolidBlock :=
  { b with pages := b.pages.modify pageId fun p => { p with pageData := data } }

/-- A sequence of calls, with the answers of the `getPage` calls. -/
def runCalls (lz4 : Lz4) (f : DiskImage) :
    List PageCall → SolidBlock → Exec (List (Option (List UInt8)) × SolidBlock)
  | [], b => .ok ([], b)
  | .get i :: calls, b => do
    let d ← b.getPage (pageFromFile lz4 f) i
    let (answers, b) ← runCalls lz4 f calls (if d.isSome then b.setPageData i d else b)
    return (d :: answers, b)
  | .free i :: calls, b => runCalls lz4 f calls (b.setPageData i none)

end SolidBlock

end DBStream.Native
