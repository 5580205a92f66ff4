import DBStream.Native.ClusterLogIterator
import DBStream.Spec.ClusterLogFind
import DBStream.Spec.ClusterLogMark
import DBStream.Spec.ClusterLogReopen
import Mathlib.Data.List.Chain

/-!
# Reading a log file while it is written

The blocks of a file that appends fill are known by their entries.  What a reader needs of them is
apart from what the writer needs to go on: the last block is in memory and nothing of it is on disk,
the others are on disk only.
-/

namespace DBStream.Native.CLUSTER.LogFile

variable {f f' g : LogFile} {cfg : LogConfig} {e : LogEntryRpcBase} {es : List LogEntryRpcBase}
  {groups : List (List LogEntryRpcBase)} {d pre post mark : List UInt8} {i j n : Nat}

/-! ## Bytes -/

def contents (es : List LogEntryRpcBase) : List UInt8 := es.flatMap LogEntryRpcBase.bytes

@[simp] theorem contents_nil : contents [] = [] := rfl

@[simp] theorem contents_cons : contents (e :: es) = e.bytes ++ contents es := rfl

@[simp] theorem contents_append (es es' : List LogEntryRpcBase) :
    contents (es ++ es') = contents es ++ contents es' := List.flatMap_append

theorem head_at (h : RaftRpcHead) (body : List UInt8) (hsize : h.size < 2 ^ 32)
    (hlength : (h.bytes ++ body).length = h.size) (hd : d = pre ++ ((h.bytes ++ body) ++ post)) :
    pre.length + raftRpcHeadSize ≤ d.length ∧ headSize d pre.length = h.size ∧
      headRecordType d pre.length = h.recordType ∧ d.slice pre.length h.size = h.bytes ++ body := by
  subst hd
  have hbytes : h.bytes.length = 6 := by simp [RaftRpcHead.bytes]
  refine ⟨?_, ?_, ?_, List.slice_append_mid _ rfl hlength⟩
  · simp only [List.length_append, hbytes, raftRpcHeadSize]
    omega
  · have hslice : (pre ++ ((h.bytes ++ body) ++ post)).slice pre.length 4 = LE.bytes 4 h.size := by
      rw [RaftRpcHead.bytes, List.append_assoc, List.append_assoc]
      exact List.slice_append_mid _ rfl (LE.length_bytes _ _)
    rw [headSize, hslice]
    exact LE.nat_bytes_of_lt hsize
  · have hget : (pre ++ ((h.bytes ++ body) ++ post))[pre.length + 4]? = some h.recordType := by
      rw [List.getElem?_append_right (Nat.le_add_right _ _), Nat.add_sub_cancel_left,
        RaftRpcHead.bytes, List.append_assoc, List.append_assoc,
        List.getElem?_append_right (LE.length_bytes _ _).le, LE.length_bytes]
      rfl
    rw [headRecordType, List.getD_eq_getElem?_getD, hget, Option.getD_some]

theorem entry_at (hsize : e.size < 2 ^ 32) (hd : d = pre ++ (e.bytes ++ post)) :
    pre.length + raftRpcHeadSize ≤ d.length ∧ headSize d pre.length = e.size ∧
      headRecordType d pre.length = e.recordType ∧ d.slice pre.length e.size = e.bytes := by
  have hbytes : e.bytes = e.head.bytes ++ (e.logIndex.bytes ++ e.prevRecordLogIndex.bytes ++
      LE.bytes 8 e.leaderCommitIndex ++ e.body) := by
    simp [LogEntryRpcBase.bytes]
  rw [hbytes] at hd
  obtain ⟨hle, hhead, htype, hslice⟩ := head_at e.head _ hsize (hbytes ▸ e.length_bytes) hd
  exact ⟨hle, hhead, htype, hslice.trans hbytes.symm⟩

/-! ## What a reader needs -/

/-- The bytes of a block of a file, which has the mark at its end. -/
def blockText (count : Nat) (mark : List UInt8) (i : Nat) (g : List LogEntryRpcBase) : List UInt8 :=
  contents g ++ if i + 1 = count then mark else []

/-- The blocks of a file have these entries, and the mark behind the last one. -/
structure Readable (f : LogFile) (groups : List (List LogEntryRpcBase)) (mark : List UInt8) : Prop where
  blocks : ∃ blocks, f.m_blocks = some blocks ∧ blocks.length = groups.length ∧
    ∀ i b g, blocks[i]? = some b → groups[i]? = some g →
      b.size = (blockText groups.length mark i g).length ∧
      f.loadBlock b = .ok (blockText groups.length mark i g) ∧
      b.next = if i + 1 < groups.length then some (i + 1) else none

namespace Readable

variable {es : List LogEntryRpcBase}

theorem block (h : f.Readable groups mark) (hg : groups[i]? = some es) :
    ∃ blocks b, f.m_blocks = some blocks ∧ blocks[i]? = some b ∧
      b.size = (blockText groups.length mark i es).length ∧
      f.loadBlock b = .ok (blockText groups.length mark i es) ∧
      b.next = if i + 1 < groups.length then some (i + 1) else none := by
  obtain ⟨blocks, hblocks, hlength, hall⟩ := h.blocks
  have hlt : i < blocks.length := hlength ▸ (List.getElem?_eq_some_iff.mp hg).1
  exact ⟨blocks, blocks[i], hblocks, List.getElem?_eq_getElem hlt,
    hall i _ es (List.getElem?_eq_getElem hlt) hg⟩

theorem rotate (h : f.Readable groups mark) (hg : groups[i]? = some es) :
    Iterator.rotate f i = some (.ok ⟨f, i, blockText groups.length mark i es, 0⟩) := by
  obtain ⟨blocks, b, hblocks, hb, -, hload, -⟩ := h.block hg
  simp [Iterator.rotate, hblocks, hb, hload]

private theorem next_entry (h : f.Readable groups mark) (hg : groups[i]? = some es)
    (htext : blockText groups.length mark i es = pre ++ (e.bytes ++ post)) (hsize : e.size < 2 ^ 32)
    (htype : e.recordType ≠ CLUSTER.endOfFile) (n : Nat) :
    Iterator.next (n + 1) ⟨f, i, blockText groups.length mark i es, pre.length⟩ =
      some (none, some e.bytes, ⟨f, i, blockText groups.length mark i es, pre.length + e.size⟩) := by
  obtain ⟨blocks, b, hblocks, hb, hlength, -, -⟩ := h.block hg
  obtain ⟨hle, hhead, hrecord, hslice⟩ := entry_at hsize htext
  have hne : pre.length ≠ b.size := by
    have : raftRpcHeadSize = 6 := rfl
    omega
  simp only [Iterator.next, hblocks, hb, Option.bind_eq_bind, Option.bind_some, if_neg hne,
    if_neg (Nat.not_lt.mpr hle), hhead, hrecord, if_neg htype, hslice]
  rfl

private theorem next_rotate {es' : List LogEntryRpcBase} (h : f.Readable groups mark)
    (hg : groups[i]? = some es) (hg' : groups[i + 1]? = some es') (n : Nat) :
    Iterator.next (n + 1) ⟨f, i, blockText groups.length mark i es, (contents es).length⟩ =
      Iterator.next n ⟨f, i + 1, blockText groups.length mark (i + 1) es', 0⟩ := by
  obtain ⟨blocks, b, hblocks, hb, hlength, -, hnext⟩ := h.block hg
  have hlt : i + 1 < groups.length := (List.getElem?_eq_some_iff.mp hg').1
  have hsize : (contents es).length = b.size := by
    rw [hlength, blockText, if_neg hlt.ne, List.append_nil]
  rw [if_pos hlt] at hnext
  simp only [Iterator.next, hblocks, hb, Option.bind_eq_bind, Option.bind_some, if_pos hsize, hnext,
    h.rotate hg']

theorem next_none (h : f.Readable groups []) (hg : groups[i]? = some es) (hlast : i + 1 = groups.length)
    (n : Nat) :
    Iterator.next (n + 1) ⟨f, i, blockText groups.length [] i es, (contents es).length⟩ =
      some (none, none, ⟨f, i, blockText groups.length [] i es, (contents es).length⟩) := by
  obtain ⟨blocks, b, hblocks, hb, hlength, -, hnext⟩ := h.block hg
  have hsize : (contents es).length = b.size := by simp [hlength, blockText]
  rw [if_neg hlast.not_lt] at hnext
  simp only [Iterator.next, hblocks, hb, Option.bind_eq_bind, Option.bind_some, if_pos hsize, hnext]
  rfl

theorem next_mark (h : f.Readable groups endMark.bytes) (hg : groups[i]? = some es)
    (hlast : i + 1 = groups.length) (n : Nat) :
    Iterator.next (n + 1) ⟨f, i, blockText groups.length endMark.bytes i es, (contents es).length⟩ =
      some (some .endOfFile, some endMark.bytes,
        ⟨f, i, blockText groups.length endMark.bytes i es, (contents es).length⟩) := by
  obtain ⟨blocks, b, hblocks, hb, hlength, -, hnext⟩ := h.block hg
  have htext : blockText groups.length endMark.bytes i es =
      contents es ++ ((endMark.bytes ++ []) ++ []) := by
    rw [blockText, if_pos hlast, List.append_nil, List.append_nil]
  obtain ⟨hle, hhead, hrecord, hslice⟩ := head_at endMark [] (by decide) rfl htext
  have hne : (contents es).length ≠ b.size := by
    have : raftRpcHeadSize = 6 := rfl
    omega
  have hend : (contents es).length + endMark.size = b.size := by
    rw [hlength, htext, List.length_append]
    rfl
  rw [if_neg hlast.not_lt] at hnext
  have hmark : ¬ (b.next ≠ none ∨ (contents es).length + endMark.size ≠ b.size) := by
    simp [hnext, hend]
  simp only [Iterator.next, hblocks, hb, Option.bind_eq_bind, Option.bind_some, if_neg hne,
    if_neg (Nat.not_lt.mpr hle), hhead, hrecord, hslice, if_neg hmark]
  rfl

end Readable

/-! ## What the writer keeps -/

variable {init closed : List Block} {b c : Block} {closedGroups : List (List LogEntryRpcBase)}
  {last : List LogEntryRpcBase}

def MAX_BLOCK_SIZE : Nat := 32 * 1024 * 1024

/-- A configuration as `logConfig` checks it. -/
structure Checked (cfg : LogConfig) : Prop where
  block : cfg.m_defaultBlockSize ≤ MAX_BLOCK_SIZE
  file : cfg.m_defaultLogFileSize < 2 ^ 32

theorem Checked.end_lt (h : Checked cfg) (hn : n ≤ cfg.maxBlockCount) :
    HEAD_SIZE + n * (cfg.m_defaultBlockSize - raftRpcHeadSize) < 2 ^ 32 := by
  have hblock := h.block
  have hfile := h.file
  simp only [MAX_BLOCK_SIZE, HEAD_SIZE, raftRpcHeadSize] at hblock ⊢
  have hmul : n * (cfg.m_defaultBlockSize - 6) = n * cfg.m_defaultBlockSize - n * 6 :=
    Nat.mul_sub n _ _
  by_cases hfew : n < 6
  · have hle : n * (cfg.m_defaultBlockSize - 6) ≤ 5 * (32 * 1024 * 1024) :=
      Nat.mul_le_mul (by omega) (by omega)
    omega
  · have hle : n * cfg.m_defaultBlockSize ≤ cfg.m_defaultLogFileSize :=
      (Nat.mul_le_mul_right _ hn).trans (Nat.div_mul_le_self _ _)
    omega

/-- An entry that leaves room for the mark in a block. -/
structure Small (cfg : LogConfig) (e : LogEntryRpcBase) : Prop extends e.Proper where
  room : e.size + raftRpcHeadSize ≤ cfg.m_defaultBlockSize
  recordType : e.recordType ≠ CLUSTER.endOfFile

/-- A block that the writer has left. -/
structure OnDisk (f : LogFile) (i : Nat) (b : Block) (es : List LogEntryRpcBase) : Prop where
  data : b.data = none
  size : b.size = (contents es).length
  file : f.file.slice b.idx.offset b.size = contents es
  end_le : b.idx.offset + b.size ≤ f.file.length
  next : b.next = some (i + 1)

theorem loadBlock_of_slice {b : Block} (hdata : b.data = none) (hsize : b.size = d.length)
    (hslice : f.file.slice b.idx.offset b.size = d) : f.loadBlock b = .ok d := by
  have hlength : (f.file.slice b.idx.offset b.size).length = b.size := by rw [hslice, hsize]
  rw [loadBlock, hdata]
  exact (if_pos hlength).trans (congrArg Except.ok hslice)

/-- The block that the writer fills. -/
structure InMemory (f : LogFile) (b : Block) (es : List LogEntryRpcBase) : Prop where
  offset : b.idx.offset = f.file.length
  data : b.data = some (contents es)
  size : b.size = (contents es).length
  writedSize : b.writedSize = 0
  next : b.next = none

/-- The index file lists the blocks. -/
structure Listed (f : LogFile) (blocks : List Block) : Prop where
  fd : f.m_indexFd = some (indexSize * blocks.length)
  file : f.indexFile = some (blocks.flatMap (·.idx.bytes))

/-- A block begins where the one before it ends. -/
def Joined (blocks : List Block) : Prop :=
  blocks.IsChain fun c d => c.idx.offset + c.size = d.idx.offset

/-- The entries of a file: their indexes rise up to the one given. -/
structure Rising (es : List LogEntryRpcBase) (x : LogIndexInfo) : Prop where
  pairwise : es.Pairwise fun e e' => e.logIndex < e'.logIndex
  proper : ∀ e ∈ es, e.Proper ∧ e.logIndex ≤ x

theorem Rising.snoc {x : LogIndexInfo} (h : Rising es x) (he : e.Proper) (hlt : x < e.logIndex) :
    Rising (es ++ [e]) e.logIndex where
  pairwise := by
    refine List.pairwise_append.mpr ⟨h.pairwise, List.pairwise_singleton _ _, ?_⟩
    intro y hy z hz
    rw [List.mem_singleton.mp hz]
    exact (h.proper y hy).2.trans_lt hlt
  proper := by
    intro y hy
    rcases List.mem_append.mp hy with hy | hy
    · exact ⟨(h.proper y hy).1, (h.proper y hy).2.trans hlt.le⟩
    · rw [List.mem_singleton.mp hy]
      exact ⟨he, le_rfl⟩

/-- A file that appends fill: `init` has the blocks that were left, with their entries. -/
structure Filled (f : LogFile) (cfg : LogConfig) (init : List Block) (b : Block)
    (groups : List (List LogEntryRpcBase)) (last : List LogEntryRpcBase) : Prop where
  blocks_eq : f.m_blocks = some (init ++ [b])
  count : f.m_blockCount = init.length + 1
  current : f.m_currentBlock = some init.length
  fd : f.m_fd = some f.file.length
  offset : f.m_offset = f.file.length + b.size
  length : init.length = groups.length
  onDisk : ∀ (i : Nat) (c : Block) (g : List LogEntryRpcBase), init[i]? = some c →
    groups[i]? = some g → f.OnDisk i c g
  inMemory : f.InMemory b last
  count_le : init.length + 1 ≤ cfg.maxBlockCount
  begins : ∀ (i : Nat) (c : Block) (g : List LogEntryRpcBase), (init ++ [b])[i]? = some c →
    (groups ++ [last])[i]? = some g → g.head?.map (·.logIndex) = some c.idx.logIndex
  sorted : (init ++ [b]).Pairwise fun b c => b.idx.logIndex < c.idx.logIndex
  le_last : b.idx.logIndex ≤ f.m_logIndex
  listed : f.Listed (init ++ [b])
  joined : Joined (init ++ [b])
  rising : Rising (groups ++ [last]).flatten f.m_logIndex

/-- A file whose blocks have room for the mark. -/
structure Filling (f : LogFile) (cfg : LogConfig) (init : List Block) (b : Block)
    (groups : List (List LogEntryRpcBase)) (last : List LogEntryRpcBase) : Prop
    extends f.Filled cfg init b groups last where
  volumn : b.volumn = cfg.m_defaultBlockSize
  room : b.size + raftRpcHeadSize ≤ cfg.m_defaultBlockSize
  file_le : f.file.length ≤
    HEAD_SIZE + init.length * (cfg.m_defaultBlockSize - raftRpcHeadSize)

/-- The file after its current block was written. -/
def flushed (f : LogFile) (init : List Block) (b : Block) (d : List UInt8) : LogFile :=
  { f with
    m_blocks := some (init ++ [{ b with writedSize := b.size }])
    file := f.file ++ d
    m_fd := some (f.file ++ d).length }

theorem writeCurrentBlock_whole (hblocks : f.m_blocks = some (init ++ [b]))
    (hcurrent : f.m_currentBlock = some init.length) (hfd : f.m_fd = some f.file.length)
    (hdata : b.data = some d) (hsize : b.size = d.length) (hwrited : b.writedSize = 0) (hd : d ≠ []) :
    f.writeCurrentBlock = some (.ok (f.flushed init b d)) := by
  have hne : ¬ b.size = 0 := by
    rw [hsize, List.length_eq_zero_iff]
    exact hd
  have hwrite := writeFile_append hd (le_refl f.file.length)
  rw [Nat.sub_self, List.replicate_zero, List.append_nil] at hwrite
  simp only [LogFile.writeCurrentBlock, currentBlock_of_get hblocks hcurrent List.getElem?_concat_length,
    Option.bind_eq_bind, Option.bind_some, hwrited, if_neg hne, hdata, if_neg (Nat.not_lt_zero _), hfd,
    List.drop_zero, hwrite, flushed, setBlock, hblocks, Option.map_some, set_last, List.length_append]
  rfl

/-! ## The index file -/

theorem length_indexes (blocks : List Block) :
    (blocks.flatMap (·.idx.bytes)).length = indexSize * blocks.length := by
  induction blocks with
  | nil => rfl
  | cons b blocks ih =>
    rw [List.flatMap_cons, List.length_append, ih, Index.length_bytes, List.length_cons, Nat.mul_succ,
      Nat.add_comm]

theorem Listed.writeIndex {blocks : List Block} (h : f.Listed blocks) (hidx : c.idx = idx) :
    (f.writeIndex idx).Listed (blocks ++ [c]) := by
  have hne : idx.bytes ≠ [] := by
    rw [Ne, ← List.length_eq_zero_iff, Index.length_bytes]
    decide
  have hwrite := writeFile_append hne (length_indexes blocks).le
  rw [length_indexes, Nat.sub_self, List.replicate_zero, List.append_nil] at hwrite
  constructor
  · simp only [LogFile.writeIndex, h.fd, Option.getD_some, List.length_append, List.length_singleton,
      Nat.mul_succ]
  · simp only [LogFile.writeIndex, h.fd, h.file, Option.getD_some, hwrite, List.flatMap_append,
      List.flatMap_singleton, hidx]

theorem Listed.congr {blocks blocks' : List Block} (h : f.Listed blocks)
    (hidx : blocks'.map (·.idx) = blocks.map (·.idx)) (hfd : g.m_indexFd = f.m_indexFd)
    (hfile : g.indexFile = f.indexFile) : g.Listed blocks' := by
  have hlength : blocks'.length = blocks.length := by simpa using congrArg List.length hidx
  have hbytes : ∀ l : List Block, l.flatMap (·.idx.bytes) = (l.map (·.idx)).flatMap Index.bytes := by
    intro l
    rw [List.flatMap_map]
  exact ⟨by rw [hfd, h.fd, hlength], by rw [hfile, h.file, hbytes, hbytes, hidx]⟩

theorem joined_last (h : Joined (init ++ [b])) (hidx : c.idx = b.idx) : Joined (init ++ [c]) := by
  obtain ⟨hinit, -, hlast⟩ := List.isChain_append.mp h
  refine List.isChain_append.mpr ⟨hinit, List.isChain_singleton _, ?_⟩
  rintro d hd _ ⟨⟩
  rw [hidx]
  exact hlast d hd b rfl

namespace Filled

theorem currentBlock (h : f.Filled cfg init b groups last) :
    f.currentBlock = some (init.length, b) := by
  simp [LogFile.currentBlock, h.blocks_eq, h.current]

theorem readable (h : f.Filled cfg init b groups last) : f.Readable (groups ++ [last]) [] := by
  refine ⟨init ++ [b], h.blocks_eq, by simp [h.length], ?_⟩
  intro i c g hc hg
  have htext : blockText (groups ++ [last]).length [] i g = contents g := by simp [blockText]
  rw [htext]
  rcases List.getElem?_snoc_cases hc with ⟨hi, hc⟩ | ⟨rfl, rfl⟩
  · rw [List.getElem?_append_left (h.length ▸ hi)] at hg
    obtain ⟨hdata, hsize, hfile, hend, hnext⟩ := h.onDisk i c g hc hg
    refine ⟨hsize, loadBlock_of_slice hdata hsize hfile, ?_⟩
    rw [hnext, if_pos]
    have hlength := h.length
    simp only [List.length_append, List.length_singleton]
    omega
  · rw [h.length, List.getElem?_concat_length] at hg
    cases hg
    refine ⟨h.inMemory.size, ?_, ?_⟩
    · rw [loadBlock, h.inMemory.data]
    · rw [h.inMemory.next, if_neg]
      simp [h.length]

theorem contents_ne_nil (h : f.Filled cfg init b groups last) : contents last ≠ [] := by
  have hbegin := h.begins init.length b last List.getElem?_concat_length
    (by rw [h.length, List.getElem?_concat_length])
  cases last with
  | nil => simp at hbegin
  | cons e last => exact List.append_ne_nil_of_left_ne_nil bytes_ne_nil _

theorem writeCurrentBlock (h : f.Filled cfg init b groups last) :
    f.writeCurrentBlock = some (.ok (f.flushed init b (contents last))) :=
  writeCurrentBlock_whole h.blocks_eq h.current h.fd h.inMemory.data h.inMemory.size
    h.inMemory.writedSize h.contents_ne_nil

/-- The first append to a new file makes its first block. -/
theorem first {fileId : Nat} {p q : LogIndexInfo} (he : e.Proper)
    (happend : (create fileId p q).append cfg e = some (.ok f')) :
    f'.Filled cfg [] (Block.new cfg.m_defaultBlockSize HEAD_SIZE e) [] [e] ∧
      f'.file.length = HEAD_SIZE := by
  rcases append_cases happend with ⟨-, hstore⟩ | ⟨id, b, b', hb, -⟩
  · obtain ⟨g, hnew, hg⟩ := dsReturnIfFailed_eq_ok.mp hstore
    cases hg
    obtain ⟨f₁, hf₁, hnew⟩ := dsReturnIfFailed_eq_ok.mp hnew
    cases hf₁
    obtain ⟨f₂, hadd, hnew⟩ := Option.map_eq_some_iff.mp hnew
    cases hnew
    have hmax : 0 < cfg.maxBlockCount := addBlock_lt hadd
    rw [addBlock_nil cfg _ (by rfl) (by rfl) hmax] at hadd
    cases hadd
    have hsize := he.size_lt
    have hlength : (create fileId p q).file.length = HEAD_SIZE := by simp [create, HEAD_SIZE]
    refine ⟨?_, hlength⟩
    constructor
    case blocks_eq => rfl
    case count => rfl
    case current => rfl
    case fd => exact congrArg some hlength.symm
    case offset =>
      simp [stored, withBlock, writeIndex, create, Block.new, HEAD_SIZE]
      omega
    case length => rfl
    case onDisk => simp
    case inMemory =>
      exact ⟨hlength.symm, by simp [Block.new], by simp [Block.new, e.length_bytes], rfl, rfl⟩
    case count_le => exact hmax
    case begins =>
      intro i c g hc hg
      cases i with
      | zero =>
        cases hc
        cases hg
        rfl
      | succ i => cases hc
    case sorted => exact List.pairwise_singleton _ _
    case le_last => exact le_refl e.logIndex
    case listed =>
      constructor
      · rfl
      · simp [stored, withBlock, writeIndex, create, writeFile, Block.new]
    case joined => exact List.isChain_singleton _
    case rising => exact ⟨List.pairwise_singleton _ _, by simpa [stored] using he⟩
  · cases hb

theorem onDisk_left (h : f.Filled cfg init b groups last) (hfile : g.file = f.file ++ contents last) :
    g.OnDisk init.length { b with data := none, writedSize := b.size, next := some (init.length + 1) }
      last := by
  have hsize := h.inMemory.size
  refine ⟨rfl, hsize, ?_, ?_, rfl⟩
  · have hmid := List.slice_append_mid (l := f.file) (m := contents last) [] rfl rfl
    rw [List.append_nil] at hmid
    simp only [hfile, h.inMemory.offset, hsize]
    exact hmid
  · simp only [hfile, h.inMemory.offset, hsize, List.length_append]
    exact le_refl _

/-- The entry joins the last block. -/
theorem join (h : f.Filled cfg init b groups last) (he : e.Proper) (hlt : f.m_logIndex < e.logIndex)
    (hend : f.m_offset + e.size < 2 ^ 32) {b' : Block} (hb' : b.append e = some b') :
    ((f.setBlock init.length b').stored e).Filled cfg init b' groups (last ++ [e]) := by
  have hdata := h.inMemory.data
  simp only [Block.append, hdata, Option.bind_eq_bind, Option.bind_some] at hb'
  split at hb'
  · cases hb'
    have hmod : (f.m_offset + e.size) % 2 ^ 32 = f.m_offset + e.size := Nat.mod_eq_of_lt hend
    have hsame : ∀ b' : Block, b'.idx = b.idx →
        (init ++ [b']).map (·.idx) = (init ++ [b]).map (·.idx) := by simp
    constructor
    case blocks_eq => simp [stored, setBlock, h.blocks_eq]
    case count => exact h.count
    case current => exact h.current
    case fd => exact h.fd
    case offset =>
      have hoffset := h.offset
      simp only [stored, setBlock, hmod]
      omega
    case length => exact h.length
    case onDisk =>
      intro i c g hc hg
      obtain ⟨hdata, hsize, hfile, hend, hnext⟩ := h.onDisk i c g hc hg
      exact ⟨hdata, hsize, hfile, hend, hnext⟩
    case inMemory =>
      refine ⟨h.inMemory.offset, by simp, ?_, h.inMemory.writedSize, h.inMemory.next⟩
      simp [h.inMemory.size, e.length_bytes]
    case count_le => exact h.count_le
    case begins =>
      intro i c g hc hg
      rcases List.getElem?_snoc_cases hc with ⟨hi, hc⟩ | ⟨rfl, rfl⟩
      · rw [List.getElem?_append_left (h.length ▸ hi)] at hg
        exact h.begins i c g (List.getElem?_append_left hi ▸ hc)
          (List.getElem?_append_left (h.length ▸ hi) ▸ hg)
      · rw [h.length, List.getElem?_concat_length] at hg
        cases hg
        have hbegin := h.begins init.length b last List.getElem?_concat_length
          (by rw [h.length, List.getElem?_concat_length])
        cases last with
        | nil => simp at hbegin
        | cons x last => exact hbegin
    case sorted => exact sorted_last h.sorted rfl
    case le_last => exact h.le_last.trans hlt.le
    case listed => exact h.listed.congr (hsame _ rfl) rfl rfl
    case joined => exact joined_last h.joined rfl
    case rising =>
      have hflatten : (groups ++ [last ++ [e]]).flatten = (groups ++ [last]).flatten ++ [e] := by simp
      rw [hflatten]
      exact h.rising.snoc he hlt
  · cases hb'

theorem count_lt (h : f.Filled cfg init b groups last) (hstore : f.storeInNewBlock cfg e = some (.ok f')) :
    init.length + 1 < cfg.maxBlockCount := by
  obtain ⟨g, hnew, -⟩ := dsReturnIfFailed_eq_ok.mp hstore
  obtain ⟨f₁, hwrite, hnew⟩ := dsReturnIfFailed_eq_ok.mp hnew
  rw [if_neg (by simp [h.current]), h.writeCurrentBlock] at hwrite
  obtain rfl := Except.ok.inj (Option.some.inj hwrite)
  obtain ⟨f₂, hadd, -⟩ := Option.map_eq_some_iff.mp hnew
  have hmax := addBlock_lt hadd
  exact h.count ▸ hmax

/-- The entry opens a block. -/
theorem openBlock (h : f.Filled cfg init b groups last) (he : e.Proper)
    (hlt : f.m_logIndex < e.logIndex) (hend : f.m_offset + e.size < 2 ^ 32)
    (hstore : f.storeInNewBlock cfg e = some (.ok f')) :
    ∃ c, f'.Filled cfg (init ++ [c]) (Block.new cfg.m_defaultBlockSize f.m_offset e)
        (groups ++ [last]) [e] ∧ f'.file.length = f.file.length + b.size := by
  have hmax := h.count_lt hstore
  obtain ⟨g, hnew, hg⟩ := dsReturnIfFailed_eq_ok.mp hstore
  cases hg
  obtain ⟨f₁, hwrite, hnew⟩ := dsReturnIfFailed_eq_ok.mp hnew
  rw [if_neg (by simp [h.current]), h.writeCurrentBlock] at hwrite
  obtain rfl := Except.ok.inj (Option.some.inj hwrite)
  obtain ⟨f₂, hadd, hnew⟩ := Option.map_eq_some_iff.mp hnew
  cases hnew
  have hsnoc := addBlock_snoc (f := (f.flushed init b (contents last)).writeIndex ⟨f.m_offset, e.logIndex⟩) cfg
    (Block.new cfg.m_defaultBlockSize f.m_offset e) rfl h.current (addBlock_lt hadd)
  cases hsnoc.symm.trans hadd
  have hmod : (f.m_offset + e.size) % 2 ^ 32 = f.m_offset + e.size := Nat.mod_eq_of_lt hend
  have hoffset : f.m_offset = (f.file ++ contents last).length := by
    rw [h.offset, h.inMemory.size, List.length_append]
  -- the old block as the call leaves it: written out, closed, linked to the new one
  let left : Block := { b with data := none, writedSize := b.size, next := some (init.length + 1) }
  have hleft : { Block.close { b with writedSize := b.size } with next := some f.m_blockCount } =
      left := by
    rw [h.count]
    rfl
  have hfile : (f.file ++ contents last).length = f.file.length + b.size := by
    rw [List.length_append, h.inMemory.size]
  have hsame : (init ++ [left]).map (·.idx) = (init ++ [b]).map (·.idx) := by simp [left]
  refine ⟨left, ?_, hfile⟩
  constructor
  case blocks_eq =>
    simp only [stored, withBlock, writeIndex, flushed]
    rw [hleft]
  case count => simp [stored, withBlock, writeIndex, flushed, h.count]
  case current => simp [stored, withBlock, writeIndex, flushed, h.count]
  case fd => rfl
  case offset =>
    simp only [stored, withBlock, writeIndex, flushed, hmod, Block.new]
    omega
  case length => simp [h.length]
  -- the file only grows, so the blocks on disk keep their bytes; the old block joins them
  case onDisk =>
    intro i c g hc hg
    rcases List.getElem?_snoc_cases hc with ⟨hi, hc⟩ | ⟨rfl, rfl⟩
    · rw [List.getElem?_append_left (h.length ▸ hi)] at hg
      obtain ⟨hdata, hsize, hfile, hend, hnext⟩ := h.onDisk i c g hc hg
      refine ⟨hdata, hsize, ?_, ?_, hnext⟩
      · exact (List.slice_append_left _ hend).trans hfile
      · exact hend.trans (by simp [stored, withBlock, writeIndex, flushed])
    · rw [h.length, List.getElem?_concat_length] at hg
      cases hg
      exact h.onDisk_left rfl
  case inMemory =>
    exact ⟨hoffset, by simp [Block.new], by simp [Block.new, e.length_bytes], rfl, rfl⟩
  case count_le =>
    rw [List.length_append]
    exact hmax
  -- places before the new block, the old block, the new block
  case begins =>
    intro i c g hc hg
    rcases List.getElem?_snoc_cases hc with ⟨hi, hc⟩ | ⟨rfl, rfl⟩
    · have hi' : i < (groups ++ [last]).length := by
        simpa [h.length] using hi
      rw [List.getElem?_append_left hi'] at hg
      rcases List.getElem?_snoc_cases hc with ⟨hi, hc⟩ | ⟨rfl, rfl⟩
      · exact h.begins i c g ((List.getElem?_append_left hi).trans hc) hg
      · exact h.begins _ b g List.getElem?_concat_length hg
    · have hlength : (init ++ [left]).length = (groups ++ [last]).length := by simp [h.length]
      rw [hlength, List.getElem?_concat_length] at hg
      cases hg
      rfl
  case sorted =>
    have hsorted : (init ++ [left]).Pairwise fun b c => b.idx.logIndex < c.idx.logIndex :=
      sorted_last h.sorted rfl
    refine List.pairwise_append.mpr ⟨hsorted, List.pairwise_singleton _ _, ?_⟩
    intro c hc d hd
    rw [List.mem_singleton.mp hd]
    have hbefore := (List.pairwise_append.mp h.sorted).2.2
    rcases List.mem_append.mp hc with hc | hc
    · exact ((hbefore c hc b (by simp)).trans_le h.le_last).trans hlt
    · rw [List.mem_singleton.mp hc]
      exact h.le_last.trans_lt hlt
  case le_last => exact le_refl e.logIndex
  case listed =>
    have hleft := h.listed.congr (g := f.flushed init b (contents last)) hsame rfl rfl
    exact (hleft.writeIndex (c := Block.new cfg.m_defaultBlockSize f.m_offset e) rfl).congr rfl rfl rfl
  -- the new block begins at the offset where the old one ends
  case joined =>
    refine List.isChain_append.mpr ⟨joined_last h.joined rfl, List.isChain_singleton _, ?_⟩
    rintro d hd _ ⟨⟩
    obtain rfl : left = d := by simpa using hd
    have hend := h.offset
    rw [← h.inMemory.offset] at hend
    exact hend.symm
  case rising =>
    have hflatten : (groups ++ [last] ++ [[e]]).flatten = (groups ++ [last]).flatten ++ [e] := by simp
    rw [hflatten]
    exact h.rising.snoc he hlt

theorem append (h : f.Filled cfg init b groups last) (he : e.Proper)
    (hend : f.m_offset + e.size < 2 ^ 32) (happend : f.append cfg e = some (.ok f')) :
    (∃ b', f'.Filled cfg init b' groups (last ++ [e])) ∨
      ∃ c b', f'.Filled cfg (init ++ [c]) b' (groups ++ [last]) [e] := by
  have hlt : f.m_logIndex < e.logIndex := by
    rw [(append_logIndex happend).1]
    exact he.prev_lt
  rcases append_cases happend with ⟨-, hstore⟩ | ⟨id, c, b', hb, -, hb', rfl⟩
  · obtain ⟨c, hfilled, -⟩ := h.openBlock he hlt hend hstore
    exact .inr ⟨c, _, hfilled⟩
  · cases h.currentBlock.symm.trans hb
    exact .inl ⟨b', h.join he hlt hend hb'⟩

/-- The current block behind `markEnd`. -/
def marked (b : Block) (last : List LogEntryRpcBase) : Block :=
  { b with data := some (contents last ++ endMark.bytes), size := b.size + raftRpcHeadSize }

def markedFile (f : LogFile) (init : List Block) (b : Block) (last : List LogEntryRpcBase) : LogFile :=
  { f with
    m_blocks := some (init ++ [marked b last])
    m_offset := (f.m_offset + raftRpcHeadSize) % 2 ^ 32 }

theorem markEnd (h : f.Filled cfg init b groups last) (hroom : b.size + raftRpcHeadSize ≤ b.volumn) :
    f.markEnd = some (markedFile f init b last) := by
  simp only [LogFile.markEnd, h.currentBlock, Option.bind_eq_bind, Option.bind_some, h.inMemory.data,
    if_pos hroom, setBlock, h.blocks_eq, Option.map_some, set_last]
  rfl

def finished (f : LogFile) (init : List Block) (b : Block) (last : List LogEntryRpcBase) : LogFile :=
  { f with
    m_blocks := some (init ++ [{ b with
      data := none, size := b.size + raftRpcHeadSize, writedSize := b.size + raftRpcHeadSize }])
    m_offset := (f.m_offset + raftRpcHeadSize) % 2 ^ 32
    file := f.file ++ (contents last ++ endMark.bytes)
    m_fd := none }

theorem finish (h : f.Filled cfg init b groups last) (hroom : b.size + raftRpcHeadSize ≤ b.volumn) :
    f.finish = some (.ok (finished f init b last)) := by
  have hsize : (marked b last).size = (contents last ++ endMark.bytes).length := by
    rw [List.length_append, ← h.inMemory.size]
    rfl
  have hflush := writeCurrentBlock_whole (f := markedFile f init b last) rfl h.current h.fd rfl hsize
    h.inMemory.writedSize (List.append_ne_nil_of_left_ne_nil h.contents_ne_nil _)
  have hleave : ((markedFile f init b last).flushed init (marked b last)
      (contents last ++ endMark.bytes)).leave = some (finished f init b last) := by
    have hcurrent := currentBlock_of_get (f := (markedFile f init b last).flushed init (marked b last)
      (contents last ++ endMark.bytes)) rfl h.current List.getElem?_concat_length
    rw [leave, hcurrent]
    simp only [Option.bind_eq_bind, Option.bind_some, setBlock, flushed, Option.map_some, set_last]
    rfl
  simp [LogFile.finish, h.markEnd hroom, hflush, hleave]

theorem finished_readable (h : f.Filled cfg init b groups last) :
    (finished f init b last).Readable (groups ++ [last]) endMark.bytes := by
  have hlength := h.length
  refine ⟨_, rfl, by simp [hlength], ?_⟩
  intro i c g hc hg
  rcases List.getElem?_snoc_cases hc with ⟨hi, hc⟩ | ⟨rfl, rfl⟩
  · rw [List.getElem?_append_left (hlength ▸ hi)] at hg
    obtain ⟨hdata, hsize, hfile, hend, hnext⟩ := h.onDisk i c g hc hg
    have hlt : i + 1 < (groups ++ [last]).length := by
      simp only [List.length_append, List.length_singleton]
      omega
    have htext : blockText (groups ++ [last]).length endMark.bytes i g = contents g := by
      rw [blockText, if_neg hlt.ne, List.append_nil]
    rw [htext, if_pos hlt]
    exact ⟨hsize, loadBlock_of_slice hdata hsize ((List.slice_append_left _ hend).trans hfile), hnext⟩
  · rw [hlength, List.getElem?_concat_length] at hg
    cases hg
    have htext : blockText (groups ++ [last]).length endMark.bytes init.length last =
        contents last ++ endMark.bytes := by
      rw [blockText, if_pos (by simp [hlength])]
    have hsize : b.size + raftRpcHeadSize = (contents last ++ endMark.bytes).length := by
      rw [h.inMemory.size, List.length_append]
      rfl
    have hslice : (finished f init b last).file.slice b.idx.offset (b.size + raftRpcHeadSize) =
        contents last ++ endMark.bytes := by
      have hmid := List.slice_append_mid (l := f.file) [] h.inMemory.offset.symm hsize.symm
      rw [List.append_nil] at hmid
      exact hmid
    rw [htext]
    refine ⟨hsize, loadBlock_of_slice rfl hsize hslice, ?_⟩
    rw [if_neg (by simp [hlength])]
    exact h.inMemory.next

end Filled

namespace Filling

theorem hasRoom (h : f.Filling cfg init b groups last) : b.size + raftRpcHeadSize ≤ b.volumn := by
  rw [h.volumn]
  exact h.room

theorem first {fileId : Nat} {p q : LogIndexInfo} (he : Small cfg e)
    (happend : (create fileId p q).append cfg e = some (.ok f')) :
    ∃ b, f'.Filling cfg [] b [] [e] := by
  obtain ⟨hfilled, hfile⟩ := Filled.first he.toProper happend
  have hroom := he.room
  have hfits : ¬ e.size > cfg.m_defaultBlockSize := by omega
  exact ⟨_, hfilled, if_neg hfits, hroom, by rw [hfile]; exact Nat.le_add_right _ _⟩

theorem end_lt (h : f.Filling cfg init b groups last) (hcfg : Checked cfg) (he : Small cfg e) :
    (b.size + e.size + raftRpcHeadSize ≤ cfg.m_defaultBlockSize →
      f.m_offset + e.size < 2 ^ 32) ∧
    (init.length + 1 < cfg.maxBlockCount → f.m_offset + e.size < 2 ^ 32) := by
  have hoffset := h.offset
  have hfile := h.file_le
  have hroom := he.room
  have hblock := h.room
  constructor
  · intro hjoin
    have hend := hcfg.end_lt h.count_le
    rw [Nat.add_mul, Nat.one_mul] at hend
    omega
  · intro hnew
    have hend := hcfg.end_lt (show init.length + 2 ≤ cfg.maxBlockCount by omega)
    rw [Nat.add_mul] at hend
    omega

theorem join (h : f.Filling cfg init b groups last) (hcfg : Checked cfg) (he : Small cfg e)
    (hlt : f.m_logIndex < e.logIndex)
    (hroom : (b.size + e.size) % 2 ^ 32 + raftRpcHeadSize ≤ b.volumn) {b' : Block}
    (hb' : b.append e = some b') :
    ((f.setBlock init.length b').stored e).Filling cfg init b' groups (last ++ [e]) := by
  have hblock := hcfg.block
  have hvolumn := h.volumn
  have hfits := hb'
  simp only [Block.append, h.inMemory.data, Option.bind_eq_bind, Option.bind_some] at hfits
  split at hfits
  · next hle =>
    have hsum : (b.size + e.size) % 2 ^ 32 = b.size + e.size := by
      simp only [MAX_BLOCK_SIZE] at hblock
      exact Nat.mod_eq_of_lt (by omega)
    rw [hsum, hvolumn] at hroom
    refine ⟨h.toFilled.join he.toProper hlt ((h.end_lt hcfg he).1 hroom) hb', ?_, ?_, h.file_le⟩
    · cases hfits
      exact hvolumn
    · cases hfits
      exact hroom
  · cases hfits

theorem openBlock (h : f.Filling cfg init b groups last) (hcfg : Checked cfg) (he : Small cfg e)
    (hlt : f.m_logIndex < e.logIndex) (hstore : f.storeInNewBlock cfg e = some (.ok f')) :
    ∃ c b', f'.Filling cfg (init ++ [c]) b' (groups ++ [last]) [e] := by
  have hend := (h.end_lt hcfg he).2 (h.count_lt hstore)
  obtain ⟨c, hfilled, hlength⟩ := h.toFilled.openBlock he.toProper hlt hend hstore
  have hfile := h.file_le
  have hblock := h.room
  have hroom := he.room
  have hfits : ¬ e.size > cfg.m_defaultBlockSize := by omega
  refine ⟨c, _, hfilled, if_neg hfits, hroom, ?_⟩
  rw [hlength, List.length_append, List.length_singleton, Nat.add_mul, Nat.one_mul]
  omega

theorem append (h : f.Filling cfg init b groups last) (hcfg : Checked cfg) (he : Small cfg e)
    (happend : f.append cfg e = some (.ok f')) :
    (∃ b', f'.Filling cfg init b' groups (last ++ [e])) ∨
      ∃ c b', f'.Filling cfg (init ++ [c]) b' (groups ++ [last]) [e] := by
  have hlt : f.m_logIndex < e.logIndex := by
    rw [(append_logIndex happend).1]
    exact he.prev_lt
  rcases append_cases happend with ⟨-, hstore⟩ | ⟨id, c, b', hb, hroom, hb', rfl⟩
  · exact .inr (h.openBlock hcfg he hlt hstore)
  · cases h.currentBlock.symm.trans hb
    exact .inl ⟨b', h.join hcfg he hlt hroom hb'⟩

end Filling

/-! ## Where an iterator is -/

variable {blocks : List Block} {it it' : Iterator} {read : List LogEntryRpcBase} {finished : Bool}

@[simp] theorem blockText_nil (count i : Nat) (es : List LogEntryRpcBase) :
    blockText count [] i es = contents es := by simp [blockText]

/-- The blocks of a file are in the order of their indexes, and begin with those of their first
    entries. -/
def Indexed (f : LogFile) (groups : List (List LogEntryRpcBase)) : Prop :=
  ∃ blocks, f.m_blocks = some blocks ∧ f.m_blockCount = blocks.length ∧
    (blocks.Pairwise fun b c => b.idx.logIndex < c.idx.logIndex) ∧
    ∀ (i : Nat) (b : Block) (g : List LogEntryRpcBase), blocks[i]? = some b → groups[i]? = some g →
      g.head?.map (·.logIndex) = some b.idx.logIndex

theorem flatten_split (hg : groups[j]? = some es) :
    groups.flatten = (groups.take j).flatten ++ (es ++ (groups.drop (j + 1)).flatten) := by
  obtain ⟨hj, rfl⟩ := List.getElem?_eq_some_iff.mp hg
  rw [← List.flatten_cons, ← List.drop_eq_getElem_cons hj, ← List.flatten_append,
    List.take_append_drop]

/-- `find` in a block goes over the entries below the index. -/
theorem findFrom_entry {done : List LogEntryRpcBase} (pre post : List UInt8)
    (hdone : ∀ y ∈ done, y.Proper ∧ y.logIndex < e.logIndex) (hfits : e.logIndex.Fits) {fuel : Nat}
    (hfuel : done.length < fuel) :
    Block.findFrom (pre ++ (contents done ++ (e.bytes ++ post))) e.logIndex fuel pre.length =
      some (some (pre.length + (contents done).length)) := by
  have hindex : ∀ (pre : List UInt8) (y : LogEntryRpcBase) (post : List UInt8), y.logIndex.Fits →
      pre.length + 22 ≤ (pre ++ (y.bytes ++ post)).length ∧
        entryLogIndex (pre ++ (y.bytes ++ post)) pre.length = y.logIndex := by
    intro pre y post hfits
    obtain ⟨hlength, hindex⟩ := entryLogIndex_bytes hfits post
    refine ⟨?_, ?_⟩
    · rw [List.length_append]
      omega
    · rw [entryLogIndex, List.slice_append_right]
      exact hindex
  -- the place moves over the entries that are below the index
  induction done generalizing pre fuel with
  | nil =>
    obtain ⟨fuel, rfl⟩ : ∃ n, fuel = n + 1 := ⟨fuel - 1, by omega⟩
    obtain ⟨hlength, hhead⟩ := hindex pre e post hfits
    rw [contents_nil, List.nil_append, Block.findFrom, if_pos (by omega), if_neg (by omega), hhead,
      if_neg (lt_irrefl _)]
    rfl
  | cons y done ih =>
    obtain ⟨fuel, rfl⟩ : ∃ n, fuel = n + 1 := ⟨fuel - 1, by omega⟩
    obtain ⟨hproper, hlt⟩ := hdone y (List.mem_cons_self ..)
    have hsize : y.size < 2 ^ 32 := hproper.size_lt.trans (by decide)
    have htext : contents (y :: done) ++ (e.bytes ++ post) =
        y.bytes ++ (contents done ++ (e.bytes ++ post)) := by
      rw [contents_cons, List.append_assoc]
    obtain ⟨hlength, hhead⟩ := hindex pre y (contents done ++ (e.bytes ++ post)) hproper.fits
    obtain ⟨-, hskip, -⟩ := entry_at (d := pre ++ (y.bytes ++ (contents done ++ (e.bytes ++ post))))
      hsize rfl
    have hfuel' : done.length < fuel := by simpa using hfuel
    have hnext := ih (pre ++ y.bytes) (fun z hz => hdone z (List.mem_cons_of_mem _ hz)) hfuel'
    rw [List.length_append, y.length_bytes, List.append_assoc] at hnext
    rw [htext, Block.findFrom, if_pos (by omega), if_neg (by omega), hhead, if_pos hlt, hskip, hnext,
      contents_cons, List.length_append, y.length_bytes, Nat.add_assoc]

theorem length_le_contents (es : List LogEntryRpcBase) : es.length ≤ (contents es).length := by
  induction es with
  | nil => exact Nat.zero_le _
  | cons e es ih =>
    rw [contents_cons, List.length_append, e.length_bytes, LogEntryRpcBase.size, List.length_cons,
      logEntryRpcBaseSize]
    omega

variable {done todo : List LogEntryRpcBase} {x : LogIndexInfo}

/-- The entries before an entry of a file are below it, and those of the later blocks above it. -/
theorem Rising.around (h : Rising groups.flatten x) (hg : groups[j]? = some (done ++ e :: todo)) :
    e.Proper ∧ (∀ y ∈ done, y.Proper ∧ y.logIndex < e.logIndex) ∧
      ∀ i g, j < i → groups[i]? = some g → ∀ y ∈ g, e.logIndex < y.logIndex := by
  have hsplit := flatten_split hg
  have hpairwise := h.pairwise
  rw [hsplit] at hpairwise
  obtain ⟨-, hafter, -⟩ := List.pairwise_append.mp hpairwise
  obtain ⟨hblock, -, hbehind⟩ := List.pairwise_append.mp hafter
  have hmem : ∀ y ∈ done ++ e :: todo, y.Proper := by
    intro y hy
    refine (h.proper y ?_).1
    rw [hsplit]
    exact List.mem_append_right _ (List.mem_append_left _ hy)
  refine ⟨hmem e (by simp), ?_, ?_⟩
  · intro y hy
    exact ⟨hmem y (List.mem_append_left _ hy),
      (List.pairwise_append.mp hblock).2.2 y hy e (List.mem_cons_self ..)⟩
  · intro i g hi hg' y hy
    refine hbehind e (by simp) y (List.mem_flatten.mpr ⟨g, ?_, hy⟩)
    obtain ⟨n, rfl⟩ := Nat.exists_eq_add_of_lt hi
    apply List.mem_of_getElem? (i := n)
    rw [List.getElem?_drop]
    rwa [show j + 1 + n = j + n + 1 by omega]

/-- An entry is in the block with the greatest first index up to its own. -/
theorem Rising.containing {blocks : List Block} (h : Rising groups.flatten x)
    (hlength : blocks.length = groups.length) (hne : ∀ g ∈ groups, g ≠ [])
    (hsorted : blocks.Pairwise fun b c => b.idx.logIndex < c.idx.logIndex)
    (hbegin : ∀ (i : Nat) (b : Block) (g : List LogEntryRpcBase), blocks[i]? = some b →
      groups[i]? = some g → g.head?.map (·.logIndex) = some b.idx.logIndex)
    (hg : groups[j]? = some (done ++ e :: todo)) : Containing blocks e.logIndex j := by
  obtain ⟨-, hdone, hbehind⟩ := h.around hg
  have hj : j < blocks.length := hlength ▸ (List.getElem?_eq_some_iff.mp hg).1
  have hb : blocks[j]? = some blocks[j] := List.getElem?_eq_getElem hj
  have hhead := hbegin j _ _ hb hg
  have hle : (blocks[j]).idx.logIndex ≤ e.logIndex := by
    cases done with
    | nil => exact (Option.some.inj hhead).ge
    | cons y done => exact (Option.some.inj hhead).ge.trans (hdone y (List.mem_cons_self ..)).2.le
  refine ⟨_, hb, hle, ?_⟩
  intro c hc hcle
  obtain ⟨i, hi, rfl⟩ := List.getElem_of_mem hc
  rcases Nat.lt_trichotomy i j with hij | rfl | hij
  · exact (List.pairwise_iff_getElem.mp hsorted i j hi hj hij).le
  · exact le_rfl
  · -- a block behind begins with an entry above
    have hi' : i < groups.length := hlength ▸ hi
    have hg' : groups[i]? = some groups[i] := List.getElem?_eq_getElem hi'
    obtain ⟨y, g, hy⟩ := List.exists_cons_of_ne_nil (hne _ (List.getElem_mem hi'))
    have hlt := hbehind i _ hij hg' y (by rw [hy]; exact List.mem_cons_self ..)
    have hidx := hbegin i _ _ (List.getElem?_eq_getElem hi) hg'
    rw [hy] at hidx
    rw [← Option.some.inj hidx] at hcle
    exact absurd hlt (not_lt.mpr hcle)

/-- `search` for an entry stands at it, if `findBlock` finds its block. -/
theorem Readable.search (h : f.Readable groups mark) (hindexed : f.Indexed groups)
    (hne : ∀ g ∈ groups, g ≠ []) (hrising : Rising groups.flatten x)
    (hg : groups[j]? = some (done ++ e :: todo)) :
    ∃ blocks, f.m_blocks = some blocks ∧ Containing blocks e.logIndex j ∧
      Iterator.search f e.logIndex = some (if Found f blocks e.logIndex j then
        .ok ⟨f, j, blockText groups.length mark j (done ++ e :: todo), (contents done).length⟩
      else .error .logIndexNotFound) := by
  obtain ⟨blocks, hblocks, hcount, hsorted, hbegin⟩ := hindexed
  obtain ⟨blocks', hblocks', hlength, -⟩ := h.blocks
  cases hblocks.symm.trans hblocks'
  have hcontaining := hrising.containing hlength hne hsorted hbegin hg
  obtain ⟨r, hfind, hr⟩ := findBlock_eq hblocks hcount hsorted e.logIndex
  refine ⟨blocks, hblocks, hcontaining, ?_⟩
  by_cases hfound : Found f blocks e.logIndex j
  · rw [if_pos hfound]
    rw [(hr j).mpr ⟨hcontaining, hfound⟩] at hfind
    obtain ⟨hproper, hdone, -⟩ := hrising.around hg
    have htext : blockText groups.length mark j (done ++ e :: todo) = [] ++ (contents done ++
        (e.bytes ++ (contents todo ++ if j + 1 = groups.length then mark else []))) := by
      simp [blockText]
    have hplace := findFrom_entry [] (contents todo ++ if j + 1 = groups.length then mark else []) hdone
      hproper.fits
      (show done.length < (blockText groups.length mark j (done ++ e :: todo)).length + 1 by
        have hle := length_le_contents done
        rw [htext, List.nil_append, List.length_append]
        omega)
    rw [← htext, List.length_nil, Nat.zero_add] at hplace
    simp only [Iterator.search, hfind, h.rotate hg, Option.bind_eq_bind, Option.bind_some,
      dsReturnIfFailed_ok, Block.find, hplace]
    rfl
  · rw [if_neg hfound]
    -- a block that `findBlock` answers is the containing one
    have hnone : r = none := by
      cases r with
      | none => rfl
      | some p =>
        obtain ⟨hp, hfound'⟩ := (hr p).mp rfl
        rw [hp.unique hcontaining hsorted] at hfound'
        exact absurd hfound' hfound
    rw [hnone] at hfind
    simp [Iterator.search, hfind]

/-- An iterator that has read these entries. -/
def Standing (f : LogFile) (groups : List (List LogEntryRpcBase)) (mark : List UInt8) (it : Iterator)
    (read : List LogEntryRpcBase) : Prop :=
  ∃ j done todo, groups[j]? = some (done ++ todo) ∧ read = (groups.take j).flatten ++ done ∧
    it = ⟨f, j, blockText groups.length mark j (done ++ todo), (contents done).length⟩

def markOf (finished : Bool) : List UInt8 := if finished then endMark.bytes else []

/-- What `next` returns if these entries are left. -/
def answer (finished : Bool) : List LogEntryRpcBase → Option ErrorCode × Option (List UInt8)
  | e :: _ => (none, some e.bytes)
  | [] => if finished then (some .endOfFile, some endMark.bytes) else (none, none)

theorem flatten_take_succ (hg : groups[j]? = some es) :
    (groups.take (j + 1)).flatten = (groups.take j).flatten ++ es := by
  rw [List.take_add_one, hg, Option.toList_some, List.flatten_append, List.flatten_singleton]

/-- What a file gives its readers: the entries of its blocks in their order. -/
structure Served (f : LogFile) (cfg : LogConfig) (finished : Bool)
    (groups : List (List LogEntryRpcBase)) : Prop where
  readable : f.Readable groups (markOf finished)
  indexed : f.Indexed groups
  ne_nil : ∀ g ∈ groups, g ≠ []
  rising : Rising groups.flatten f.m_logIndex
  small : ∀ e ∈ groups.flatten, Small cfg e

theorem Served.next_in_block {todo : List LogEntryRpcBase} (h : f.Served cfg finished groups)
    (done : List LogEntryRpcBase)
    (hg : groups[j]? = some (done ++ e :: todo)) :
    ∃ it', (∀ n, Iterator.next (n + 1)
        ⟨f, j, blockText groups.length (markOf finished) j (done ++ e :: todo), (contents done).length⟩ =
          some (none, some e.bytes, it')) ∧
      Standing f groups (markOf finished) it' ((groups.take j).flatten ++ (done ++ [e])) := by
  have hsmall : Small cfg e := by
    apply h.small
    rw [flatten_split hg]
    simp
  have htext : blockText groups.length (markOf finished) j (done ++ e :: todo) = contents done ++
      (e.bytes ++ (contents todo ++ if j + 1 = groups.length then markOf finished else [])) := by
    simp [blockText]
  have hsize : e.size < 2 ^ 32 := by
    have := hsmall.size_lt
    omega
  refine ⟨_, h.readable.next_entry hg htext hsize hsmall.recordType, j, done ++ [e], todo, ?_, rfl, ?_⟩
  · rw [hg, List.append_assoc, List.singleton_append]
  · simp [e.length_bytes]

/-- `next` gives the entry behind those that were read, or says that there is none. -/
theorem Standing.next (h : Standing f groups (markOf finished) it read)
    (hserved : f.Served cfg finished groups) : ∃ rest it', groups.flatten = read ++ rest ∧
      (∀ n, Iterator.next (n + 2) it =
        some ((answer finished rest).1, (answer finished rest).2, it')) ∧
      Standing f groups (markOf finished) it' (read ++ rest.take 1) := by
  obtain ⟨j, done, todo, hg, rfl, rfl⟩ := h
  have hflatten := flatten_split hg
  cases todo with
  | cons e todo =>
    obtain ⟨it', hnext, hstanding⟩ := hserved.next_in_block done hg
    refine ⟨e :: (todo ++ (groups.drop (j + 1)).flatten), it', ?_, fun n => hnext (n + 1), ?_⟩
    · rw [hflatten]
      simp
    · rw [List.append_assoc]
      exact hstanding
  | nil =>
    simp only [List.append_nil] at hg ⊢
    by_cases hlast : j + 1 < groups.length
    · -- the first entry of the next block
      have hg' : groups[j + 1]? = some groups[j + 1] := List.getElem?_eq_getElem hlast
      obtain ⟨e, todo, htodo⟩ := List.exists_cons_of_ne_nil
        (hserved.ne_nil _ (List.getElem_mem hlast))
      rw [htodo] at hg'
      obtain ⟨it', hnext, hstanding⟩ := hserved.next_in_block [] hg'
      refine ⟨e :: (todo ++ (groups.drop (j + 2)).flatten), it', ?_, fun n => ?_, ?_⟩
      · rw [flatten_split hg', flatten_take_succ hg]
        simp
      · rw [hserved.readable.next_rotate hg hg']
        exact hnext n
      · rw [flatten_take_succ hg] at hstanding
        exact hstanding
    · have hlength : j + 1 = groups.length := by
        have := (List.getElem?_eq_some_iff.mp hg).1
        omega
      have hall : groups.flatten = (groups.take j).flatten ++ done := by
        rw [hflatten, List.drop_eq_nil_of_le (by omega)]
        simp
      have hstanding : Standing f groups (markOf finished)
          ⟨f, j, blockText groups.length (markOf finished) j done, (contents done).length⟩
          ((groups.take j).flatten ++ done) := ⟨j, done, [], by simpa using hg, rfl, by simp⟩
      refine ⟨[], _, by rw [hall, List.append_nil], fun n => ?_, by rwa [List.take_nil, List.append_nil]⟩
      cases finished with
      | false => exact hserved.readable.next_none hg hlength (n + 1)
      | true => exact hserved.readable.next_mark hg hlength (n + 1)

/-! ## What the iterator sees of a call of the writer -/

theorem refresh_eq {b : Block} {off : Nat} (hblocks : f'.m_blocks = some blocks)
    (hb : blocks[j]? = some b) :
    Iterator.refresh f' ⟨f, j, d, off⟩ = ⟨f', j, b.data.getD d, off⟩ := by
  simp [Iterator.refresh, hblocks, hb]

theorem Filled.refresh_onDisk {off : Nat} (h : f'.Filled cfg init b groups last)
    (hj : groups[j]? = some es) :
    Iterator.refresh f' ⟨f, j, contents es, off⟩ = ⟨f', j, contents es, off⟩ := by
  have hlt : j < init.length := h.length ▸ (List.getElem?_eq_some_iff.mp hj).1
  have hc : (init ++ [b])[j]? = some init[j] := by
    rw [List.getElem?_append_left hlt, List.getElem?_eq_getElem hlt]
  rw [refresh_eq h.blocks_eq hc, (h.onDisk j _ _ (List.getElem?_eq_getElem hlt) hj).data]
  rfl

theorem Filled.refresh_inMemory {off : Nat} (h : f'.Filled cfg init b groups last)
    (hj : j = groups.length) :
    Iterator.refresh f' ⟨f, j, d, off⟩ = ⟨f', j, contents last, off⟩ := by
  have hc : (init ++ [b])[j]? = some b := by rw [hj, ← h.length, List.getElem?_concat_length]
  rw [refresh_eq h.blocks_eq hc, h.inMemory.data]
  rfl

theorem Standing.join {b' : Block} (hs : Standing f (groups ++ [last]) [] it read)
    (h : f'.Filled cfg init b' groups (last ++ [e])) :
    Standing f' (groups ++ [last ++ [e]]) [] (it.refresh f') read := by
  obtain ⟨j, done, todo, hg, rfl, rfl⟩ := hs
  simp only [blockText_nil]
  rcases List.getElem?_snoc_cases hg with ⟨hj, hg⟩ | ⟨rfl, hlast⟩
  · refine ⟨j, done, todo, ?_, ?_, ?_⟩
    · rw [List.getElem?_append_left hj, hg]
    · rw [List.take_append_of_le_length hj.le, List.take_append_of_le_length hj.le]
    · rw [h.refresh_onDisk hg, blockText_nil]
  · refine ⟨groups.length, done, todo ++ [e], ?_, ?_, ?_⟩
    · rw [List.getElem?_concat_length, ← hlast, List.append_assoc]
    · simp
    · rw [h.refresh_inMemory rfl, blockText_nil, ← hlast, List.append_assoc]

theorem Standing.openBlock {b' : Block} (hs : Standing f (groups ++ [last]) [] it read)
    (h : f'.Filled cfg init b' (groups ++ [last]) es) :
    Standing f' (groups ++ [last] ++ [es]) [] (it.refresh f') read := by
  obtain ⟨j, done, todo, hg, rfl, rfl⟩ := hs
  have hj := (List.getElem?_eq_some_iff.mp hg).1
  refine ⟨j, done, todo, ?_, ?_, ?_⟩
  · rw [List.getElem?_append_left hj, hg]
  · rw [List.take_append_of_le_length hj.le]
  · rw [blockText_nil, h.refresh_onDisk hg, blockText_nil]

theorem Standing.finish (hs : Standing f (groups ++ [last]) [] it read)
    (h : f.Filled cfg init b groups last) :
    Standing (Filled.finished f init b last) (groups ++ [last]) endMark.bytes
      ((it.refresh (Filled.markedFile f init b last)).refresh (Filled.finished f init b last))
      read := by
  obtain ⟨j, done, todo, hg, rfl, rfl⟩ := hs
  refine ⟨j, done, todo, hg, rfl, ?_⟩
  rcases List.getElem?_snoc_cases hg with ⟨hj, hg⟩ | ⟨rfl, hlast⟩
  · have hlt : j < init.length := h.length ▸ hj
    have hdata := (h.onDisk j _ _ (List.getElem?_eq_getElem hlt) hg).data
    have hne : j + 1 ≠ (groups ++ [last]).length := by
      simp only [List.length_append, List.length_singleton]
      omega
    have hc : ∀ c, (init ++ [c])[j]? = some init[j] := fun c => by
      rw [List.getElem?_append_left hlt, List.getElem?_eq_getElem hlt]
    rw [refresh_eq (rfl : (Filled.markedFile f init b last).m_blocks = _) (hc _),
      refresh_eq (rfl : (Filled.finished f init b last).m_blocks = _) (hc _), hdata, blockText_nil, blockText,
      if_neg hne, List.append_nil]
    rfl
  · have hc : ∀ c, (init ++ [c])[groups.length]? = some c := fun c => by
      rw [← h.length, List.getElem?_concat_length]
    have htext : blockText (groups ++ [last]).length endMark.bytes groups.length last =
        contents last ++ endMark.bytes := by rw [blockText, if_pos (by simp)]
    rw [refresh_eq (rfl : (Filled.markedFile f init b last).m_blocks = _) (hc _),
      refresh_eq (rfl : (Filled.finished f init b last).m_blocks = _) (hc _), hlast, htext]
    rfl

/-! ## Runs -/

variable {fileId : Nat} {p q : LogIndexInfo} {out : List (List UInt8)}

/-- A run of a writer and one reader: the file, whether it is finished, the accepted entries, the
    iterator, and the entries that `next` has returned. -/
inductive ReadRun (cfg : LogConfig) (fileId : Nat) (p q : LogIndexInfo) :
    LogFile → Bool → List LogEntryRpcBase → Option Iterator → List (List UInt8) → Prop
  | create : ReadRun cfg fileId p q (create fileId p q) false [] none []
  | append {f f' : LogFile} {es : List LogEntryRpcBase} {it : Option Iterator}
      {out : List (List UInt8)} {e : LogEntryRpcBase} (h : ReadRun cfg fileId p q f false es it out)
      (he : Small cfg e) (happend : f.append cfg e = some (.ok f')) :
      ReadRun cfg fileId p q f' false (es ++ [e]) (it.map (·.refresh f')) out
  | finish {f f₁ f' : LogFile} {es : List LogEntryRpcBase} {it : Option Iterator}
      {out : List (List UInt8)} (h : ReadRun cfg fileId p q f false es it out)
      (hmark : f.markEnd = some f₁) (hfinish : f.finish = some (.ok f')) :
      ReadRun cfg fileId p q f' true es (it.map fun it => (it.refresh f₁).refresh f') out
  | search {f : LogFile} {finished : Bool} {es : List LogEntryRpcBase} {out : List (List UInt8)}
      {e : LogEntryRpcBase} {it : Iterator} (h : ReadRun cfg fileId p q f finished es none out)
      (he : es.head? = some e) (hsearch : Iterator.search f e.logIndex = some (.ok it)) :
      ReadRun cfg fileId p q f finished es (some it) out
  | next {f : LogFile} {finished : Bool} {es : List LogEntryRpcBase} {out : List (List UInt8)}
      {it it' : Iterator} {fuel : Nat} {code : Option ErrorCode} {logEntry : Option (List UInt8)}
      (h : ReadRun cfg fileId p q f finished es (some it) out)
      (hnext : Iterator.next fuel it = some (code, logEntry, it')) :
      ReadRun cfg fileId p q f finished es (some it')
        (if code = none then out ++ logEntry.toList else out)

theorem next_succ {r : Option ErrorCode × Option (List UInt8) × Iterator}
    (h : Iterator.next n it = some r) : Iterator.next (n + 1) it = some r := by
  induction n generalizing it with
  | zero => cases h
  | succ n ih =>
    rw [Iterator.next] at h ⊢
    obtain ⟨blocks, hblocks, h⟩ := Option.bind_eq_some_iff.mp h
    obtain ⟨b, hb, h⟩ := Option.bind_eq_some_iff.mp h
    simp only [hblocks, hb, Option.bind_eq_bind, Option.bind_some]
    split at h
    · next hend =>
      rw [if_pos hend]
      cases hnext : b.next with
      | none =>
        rw [hnext] at h
        exact h
      | some id =>
        rw [hnext] at h
        obtain ⟨s, hs, h⟩ := Option.bind_eq_some_iff.mp h
        simp only [hs, Option.bind_some]
        cases s with
        | error code => exact h
        | ok it => exact ih h
    · next hend =>
      rw [if_neg hend]
      exact h

/-- The iterator of a run has read what was returned. -/
def Followed (f : LogFile) (groups : List (List LogEntryRpcBase)) (mark : List UInt8)
    (out : List (List UInt8)) : Option Iterator → Prop
  | none => out = []
  | some it => ∃ read, Standing f groups mark it read ∧ out = read.map LogEntryRpcBase.bytes

/-- A file of a run, from its first entry on. -/
structure Reading (cfg : LogConfig) (f : LogFile) (finished : Bool) (es : List LogEntryRpcBase)
    (it : Option Iterator) (out : List (List UInt8)) (groups : List (List LogEntryRpcBase)) :
    Prop where
  served : f.Served cfg finished groups
  flatten : groups.flatten = es
  filling : finished = false → ∃ init b init' last, f.Filling cfg init b init' last ∧
    groups = init' ++ [last]
  followed : Followed f groups (markOf finished) out it

theorem Filled.served (h : f.Filled cfg init b groups last)
    (hsmall : ∀ e ∈ (groups ++ [last]).flatten, Small cfg e) :
    f.Served cfg false (groups ++ [last]) := by
  have hlength : (init ++ [b]).length = (groups ++ [last]).length := by simp [h.length]
  refine ⟨h.readable, ⟨_, h.blocks_eq, by simp [h.count], h.sorted, h.begins⟩, ?_, h.rising, hsmall⟩
  intro g hg
  obtain ⟨i, hi, rfl⟩ := List.getElem_of_mem hg
  have hbegin := h.begins i _ _ (List.getElem?_eq_getElem (hlength ▸ hi)) (List.getElem?_eq_getElem hi)
  intro hnil
  rw [hnil] at hbegin
  cases hbegin

theorem Filled.finished_served (h : f.Filled cfg init b groups last)
    (hsmall : ∀ e ∈ (groups ++ [last]).flatten, Small cfg e) :
    (Filled.finished f init b last).Served cfg true (groups ++ [last]) := by
  obtain ⟨-, -, hne, -⟩ := h.served hsmall
  refine ⟨h.finished_readable, ⟨_, rfl, ?_, sorted_last h.sorted rfl, ?_⟩, hne, h.rising, hsmall⟩
  · simp [Filled.finished, h.count]
  · intro i c g hc hg
    rcases List.getElem?_snoc_cases hc with ⟨hi, hc⟩ | ⟨hi, rfl⟩
    · exact h.begins i c g ((List.getElem?_append_left hi).trans hc) hg
    · exact h.begins i b g (by rw [hi, List.getElem?_concat_length]) hg

theorem Reading.append {groups : List (List LogEntryRpcBase)} {it : Option Iterator}
    (h : Reading cfg f false es it out groups) (hcfg : Checked cfg) (he : Small cfg e)
    (happend : f.append cfg e = some (.ok f')) :
    ∃ groups', Reading cfg f' false (es ++ [e]) (it.map (·.refresh f')) out groups' := by
  obtain ⟨init, b, left, last, hfilling, rfl⟩ := h.filling rfl
  have hsmall : ∀ x ∈ es ++ [e], Small cfg x := by
    intro x hx
    rcases List.mem_append.mp hx with hx | hx
    · exact h.served.small x (h.flatten ▸ hx)
    · rwa [List.mem_singleton.mp hx]
  have hes := h.flatten
  rcases hfilling.append hcfg he happend with ⟨b', hfilling'⟩ | ⟨c, b', hfilling'⟩
  · have hflatten : (left ++ [last ++ [e]]).flatten = es ++ [e] := by
      rw [← hes]
      simp
    refine ⟨left ++ [last ++ [e]], hfilling'.served (hflatten ▸ hsmall), hflatten,
      fun _ => ⟨_, _, _, _, hfilling', rfl⟩, ?_⟩
    cases it with
    | none => exact h.followed
    | some it =>
      obtain ⟨read, hstanding, hout⟩ := h.followed
      exact ⟨read, hstanding.join hfilling'.toFilled, hout⟩
  · have hflatten : (left ++ [last] ++ [[e]]).flatten = es ++ [e] := by
      rw [← hes]
      simp
    refine ⟨left ++ [last] ++ [[e]], hfilling'.served (hflatten ▸ hsmall), hflatten,
      fun _ => ⟨_, _, _, _, hfilling', rfl⟩, ?_⟩
    cases it with
    | none => exact h.followed
    | some it =>
      obtain ⟨read, hstanding, hout⟩ := h.followed
      exact ⟨read, hstanding.openBlock hfilling'.toFilled, hout⟩

theorem Reading.finish {groups : List (List LogEntryRpcBase)} {it : Option Iterator} {f₁ : LogFile}
    (h : Reading cfg f false es it out groups) (hmark : f.markEnd = some f₁)
    (hfinish : f.finish = some (.ok f')) :
    Reading cfg f' true es (it.map fun it => (it.refresh f₁).refresh f') out groups := by
  obtain ⟨init, b, left, last, hfilling, rfl⟩ := h.filling rfl
  cases (hfilling.markEnd hfilling.hasRoom).symm.trans hmark
  cases (hfilling.finish hfilling.hasRoom).symm.trans hfinish
  refine ⟨hfilling.finished_served h.served.small, h.flatten, (fun hfalse => by cases hfalse), ?_⟩
  cases it with
  | none => exact h.followed
  | some it =>
    obtain ⟨read, hstanding, hout⟩ := h.followed
    exact ⟨read, hstanding.finish hfilling.toFilled, hout⟩

theorem Served.first (h : f.Served cfg finished groups) (he : groups.flatten.head? = some e) :
    ∃ todo, groups[0]? = some (e :: todo) := by
  cases groups with
  | nil => cases he
  | cons g groups =>
    obtain ⟨x, todo, rfl⟩ := List.exists_cons_of_ne_nil (h.ne_nil g (List.mem_cons_self ..))
    cases he
    exact ⟨todo, rfl⟩

theorem Served.search (h : f.Served cfg finished groups) (he : groups.flatten.head? = some e) :
    ∃ it, Iterator.search f e.logIndex = some (.ok it) ∧
      Standing f groups (markOf finished) it [] := by
  obtain ⟨todo, hg⟩ := h.first he
  have hfirst : groups[0]? = some ([] ++ e :: todo) := hg
  obtain ⟨blocks, hblocks, ⟨b, hb, -⟩, hsearch⟩ :=
    h.readable.search h.indexed h.ne_nil h.rising hfirst
  obtain ⟨blocks', hblocks', -, -, hbegin⟩ := h.indexed
  cases hblocks.symm.trans hblocks'
  have hidx : b.idx.logIndex = e.logIndex := (Option.some.inj (hbegin 0 b _ hb hg)).symm
  have hfound : Found f blocks e.logIndex 0 := by
    rw [Found, if_pos ⟨b, List.mem_of_getElem? hb, hidx⟩]
    trivial
  rw [if_pos hfound] at hsearch
  exact ⟨_, hsearch, 0, [], e :: todo, hg, rfl, rfl⟩

theorem Reading.next {groups : List (List LogEntryRpcBase)} {fuel : Nat} {code : Option ErrorCode}
    {logEntry : Option (List UInt8)} (h : Reading cfg f finished es (some it) out groups)
    (hnext : Iterator.next fuel it = some (code, logEntry, it')) :
    Reading cfg f finished es (some it') (if code = none then out ++ logEntry.toList else out)
      groups := by
  obtain ⟨read, hstanding, rfl⟩ := h.followed
  obtain ⟨rest, it'', -, hall, hstanding'⟩ := hstanding.next h.served
  have hagain := next_succ (next_succ hnext)
  rw [hall fuel] at hagain
  obtain ⟨rfl, rfl, rfl⟩ : (answer finished rest).1 = code ∧ (answer finished rest).2 = logEntry ∧
      it'' = it' := by simpa using hagain
  refine ⟨h.served, h.flatten, h.filling, _, hstanding', ?_⟩
  cases rest with
  | nil => cases finished <;> simp [answer]
  | cons e rest => simp [answer]

theorem ReadRun.reading (hcfg : Checked cfg) {it : Option Iterator}
    (h : ReadRun cfg fileId p q f finished es it out) :
    (finished = false ∧ es = [] ∧ f = LogFile.create fileId p q ∧ it = none ∧ out = []) ∨
      ∃ groups, Reading cfg f finished es it out groups := by
  induction h with
  | create => exact .inl ⟨rfl, rfl, rfl, rfl, rfl⟩
  | append _ he happend ih =>
    right
    rcases ih with ⟨-, rfl, rfl, rfl, rfl⟩ | ⟨groups, hreading⟩
    · obtain ⟨b, hfilling⟩ := Filling.first he happend
      refine ⟨[[_]], hfilling.served ?_, rfl, fun _ => ⟨_, _, _, _, hfilling, rfl⟩, rfl⟩
      intro x hx
      obtain rfl : x = _ := by simpa using hx
      exact he
    · exact hreading.append hcfg he happend
  | finish _ hmark hfinish ih =>
    right
    rcases ih with ⟨-, -, rfl, -, -⟩ | ⟨groups, hreading⟩
    · cases hmark
    · exact ⟨groups, hreading.finish hmark hfinish⟩
  | search _ he hsearch ih =>
    right
    rcases ih with ⟨-, rfl, -, -, -⟩ | ⟨groups, hreading⟩
    · cases he
    · obtain ⟨it, hit, hstanding⟩ := hreading.served.search (hreading.flatten ▸ he)
      obtain rfl := Except.ok.inj (Option.some.inj (hit.symm.trans hsearch))
      exact ⟨groups, hreading.served, hreading.flatten, hreading.filling, [], hstanding,
        hreading.followed⟩
  | next _ hnext ih =>
    right
    rcases ih with ⟨-, -, -, hnone, -⟩ | ⟨groups, hreading⟩
    · cases hnone
    · exact ⟨groups, hreading.next hnext⟩

/-- In every state of a run `next` has returned the first entries in their order, and returns the one
    behind them.  At the end it returns no entry, or `endOfFile` if the file is finished.  `search`
    finds the first index, and `finish` succeeds. -/
theorem reads_back (hcfg : Checked cfg) {it : Option Iterator}
    (h : ReadRun cfg fileId p q f finished es it out) :
    out = (es.take out.length).map LogEntryRpcBase.bytes ∧
    (∀ i ∈ it, ∃ i', ∀ n, Iterator.next (n + 2) i =
      some ((answer finished (es.drop out.length)).1, (answer finished (es.drop out.length)).2, i')) ∧
    (∀ e ∈ es.head?, ∃ i, Iterator.search f e.logIndex = some (.ok i)) ∧
    (finished = false → es ≠ [] → ∃ f', f.finish = some (.ok f')) := by
  rcases h.reading hcfg with ⟨rfl, rfl, rfl, rfl, rfl⟩ | ⟨groups, hreading⟩
  · exact ⟨rfl, by simp, by simp, fun _ hne => absurd rfl hne⟩
  · have hflatten := hreading.flatten
    have hfollowed := hreading.followed
    refine ⟨?_, ?_, ?_, ?_⟩
    · cases it with
      | none =>
        rw [show out = [] from hfollowed]
        rfl
      | some it =>
        obtain ⟨read, hstanding, rfl⟩ := hfollowed
        obtain ⟨rest, it', hrest, -⟩ := hstanding.next hreading.served
        rw [← hflatten, hrest, List.length_map, List.take_left]
    · rintro i ⟨⟩
      obtain ⟨read, hstanding, rfl⟩ := hfollowed
      obtain ⟨rest, it', hrest, hnext, -⟩ := hstanding.next hreading.served
      refine ⟨it', ?_⟩
      rw [← hflatten, hrest, List.length_map, List.drop_left]
      exact hnext
    · intro e he
      obtain ⟨it, hit, -⟩ := hreading.served.search (hflatten ▸ he)
      exact ⟨it, hit⟩
    · rintro rfl -
      obtain ⟨init, b, left, last, hfilling, -⟩ := hreading.filling rfl
      exact ⟨_, hfilling.finish hfilling.hasRoom⟩

/-- Three entries are written to two blocks.  They are read while the last one is appended, and behind
    them the end of the file. -/
theorem reads_back_three : ∃ f it out,
    ReadRun ⟨100, 300⟩ 1 ⟨1, 0⟩ ⟨1, 1⟩ f true ((List.range 3).map (ClusterLog.entry · 0)) (some it)
        out ∧
      f.m_blocks.map (·.length) = some 2 ∧
      out = (List.range 3).map (fun i => (ClusterLog.entry i 0).bytes) ∧
      ∃ it', Iterator.next 2 it = some (some .endOfFile, some endMark.bytes, it') := by
  have hcfg : Checked ⟨100, 300⟩ := ⟨by decide, by decide⟩
  have hsmall (i : Nat) (hi : i < 3) : Small ⟨100, 300⟩ (ClusterLog.entry i 0) := by
    refine ⟨ClusterLog.entry_proper (by omega), ?_, ?_⟩
    · simp [ClusterLog.entry, LogEntryRpcBase.size, logEntryRpcBaseSize, raftRpcHeadSize]
    · simp [ClusterLog.entry, endOfFile]
  obtain ⟨f₁, f₂, f₃, marked, f, h₁, h₂, h₃, hmark, hfinish, hblocks⟩ : ∃ f₁ f₂ f₃ marked f,
      (create 1 ⟨1, 0⟩ ⟨1, 1⟩).append ⟨100, 300⟩ (ClusterLog.entry 0 0) = some (.ok f₁) ∧
        f₁.append ⟨100, 300⟩ (ClusterLog.entry 1 0) = some (.ok f₂) ∧
        f₂.append ⟨100, 300⟩ (ClusterLog.entry 2 0) = some (.ok f₃) ∧ f₃.markEnd = some marked ∧
        f₃.finish = some (.ok f) ∧ f.m_blocks.map (·.length) = some 2 :=
    ⟨_, _, _, _, _, rfl, rfl, rfl, rfl, rfl, rfl⟩
  have hwritten : ReadRun ⟨100, 300⟩ 1 ⟨1, 0⟩ ⟨1, 1⟩ f₂ false
      [ClusterLog.entry 0 0, ClusterLog.entry 1 0] none [] :=
    (ReadRun.create.append (hsmall 0 (by decide)) h₁).append (hsmall 1 (by decide)) h₂
  obtain ⟨it₀, hit⟩ := (reads_back hcfg hwritten).2.2.1 _ rfl
  have hsearched := hwritten.search rfl hit
  obtain ⟨it₁, hnext₁⟩ := (reads_back hcfg hsearched).2.1 it₀ rfl
  have hfirst := (hsearched.next (hnext₁ 0)).append (hsmall 2 (by decide)) h₃
  obtain ⟨it₂, hnext₂⟩ := (reads_back hcfg hfirst).2.1 _ rfl
  have hsecond := hfirst.next (hnext₂ 0)
  obtain ⟨it₃, hnext₃⟩ := (reads_back hcfg hsecond).2.1 _ rfl
  have hend := (hsecond.next (hnext₃ 0)).finish hmark hfinish
  obtain ⟨it₄, hnext₄⟩ := (reads_back hcfg hend).2.1 _ rfl
  exact ⟨f, _, _, hend, hblocks, rfl, it₄, hnext₄ 0⟩

end DBStream.Native.CLUSTER.LogFile
