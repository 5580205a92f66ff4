import DBStream.Native.ClusterLog

/-!
# The layout of an open log file

The blocks of a file follow each other and end at `m_offset`; those that are not in memory are on
disk, and the last one is the current one.  Appends keep this, and the bytes of the file only grow.
-/

namespace DBStream.Native.CLUSTER

/-- The entry is one of a log that grows, and of a size that keeps `m_offset` an `int32_t`. -/
structure LogEntryRpcBase.Proper (e : LogEntryRpcBase) : Prop where
  prev_lt : e.prevRecordLogIndex < e.logIndex
  fits : e.logIndex.Fits
  size_lt : e.size < 2 ^ 31

namespace LogFile

variable {f f' : LogFile} {cfg : LogConfig} {blocks blocks' init : List Block} {b b' : Block}
  {e : LogEntryRpcBase} {logIndex : LogIndexInfo} {id pos : Nat} {data : List UInt8}

/-- A block ends before another one begins. -/
def Before (b c : Block) : Prop := b.idx.offset + b.size ≤ c.idx.offset

/-- An open file with these blocks. -/
structure Laid (f : LogFile) (blocks : List Block) : Prop where
  blocks_eq : f.m_blocks = some blocks
  count : f.m_blockCount = blocks.length
  current : f.m_currentBlock = if blocks = [] then none else some (blocks.length - 1)
  ordered : blocks.Pairwise Before
  last : ∀ b ∈ blocks.getLast?, b.idx.offset + b.size = f.m_offset
  offset_lt : f.m_offset < 2 ^ 31
  data : ∀ b ∈ blocks, ∀ d ∈ b.data, d.length = b.size
  disk : ∀ b ∈ blocks, b.data = none → b.idx.offset + b.size ≤ f.file.length

/-- The current block: it is in memory, and what is written of it is in the file. -/
structure Current (f : LogFile) (b : Block) : Prop where
  data : ∃ d ∈ b.data, 22 ≤ d.length ∧ entryLogIndex d 0 = b.idx.logIndex
  writed : b.writedSize ≤ b.size
  file : b.idx.offset + b.writedSize ≤ f.file.length

/-- An open file as appends leave it. -/
structure Kept (f : LogFile) (blocks : List Block) : Prop extends f.Laid blocks where
  fd : ∃ pos ∈ f.m_fd, f.file.length ≤ pos ∧ (∀ b ∈ blocks.getLast?, f.Current b) ∧
    (blocks = [] → f.m_offset ≤ f.file.length)
  sorted : blocks.Pairwise fun b c => b.idx.logIndex < c.idx.logIndex
  bounds : ∀ b ∈ blocks, f.m_beginLogIndex ≤ b.idx.logIndex ∧ b.idx.logIndex ≤ f.m_logIndex

theorem create_kept (fileId : Nat) (p q : LogIndexInfo) : (create fileId p q).Kept [] where
  blocks_eq := rfl
  count := rfl
  current := rfl
  ordered := .nil
  last := by simp
  offset_lt := by simp [create, HEAD_SIZE]
  data := by simp
  disk := by simp
  fd := by
    refine ⟨_, rfl, ?_, by simp, fun _ => ?_⟩
    all_goals simp [create, HEAD_SIZE]
  sorted := .nil
  bounds := by simp

/-! ## The current block -/

theorem Laid.currentBlock_eq (h : f.Laid (init ++ [b])) : f.currentBlock = some (init.length, b) := by
  simp [currentBlock, h.blocks_eq, h.current]

theorem Laid.currentBlock_nil (h : f.Laid []) : f.currentBlock = none := by
  simp [currentBlock, h.blocks_eq, h.current]

theorem Kept.current_block (h : f.Kept (init ++ [b])) :
    ∃ pos ∈ f.m_fd, f.file.length ≤ pos ∧ f.Current b := by
  obtain ⟨pos, hpos, hle, hcurrent, -⟩ := h.fd
  exact ⟨pos, hpos, hle, hcurrent b (by simp)⟩

theorem set_last : (init ++ [b]).set init.length b' = init ++ [b'] := by simp

theorem Laid.setBlock_blocks (h : f.Laid (init ++ [b])) :
    (f.setBlock init.length b').m_blocks = some (init ++ [b']) := by
  simp [setBlock, h.blocks_eq]

theorem ordered_last (h : (init ++ [b]).Pairwise Before) (hidx : b'.idx = b.idx) :
    (init ++ [b']).Pairwise Before := by
  obtain ⟨hinit, -, hlast⟩ := List.pairwise_append.mp h
  refine List.pairwise_append.mpr ⟨hinit, List.pairwise_singleton _ _, ?_⟩
  intro c hc d hd
  rw [List.mem_singleton.mp hd, Before, hidx]
  exact hlast c hc b (by simp)

theorem sorted_last (h : (init ++ [b]).Pairwise fun b c => b.idx.logIndex < c.idx.logIndex)
    (hidx : b'.idx = b.idx) :
    (init ++ [b']).Pairwise fun b c => b.idx.logIndex < c.idx.logIndex := by
  obtain ⟨hinit, -, hlast⟩ := List.pairwise_append.mp h
  refine List.pairwise_append.mpr ⟨hinit, List.pairwise_singleton _ _, ?_⟩
  intro c hc d hd
  rw [List.mem_singleton.mp hd, hidx]
  exact hlast c hc b (by simp)

theorem forall_mem_snoc {P : Block → Prop} (hinit : ∀ c ∈ init, P c) (hb : P b) :
    ∀ c ∈ init ++ [b], P c := by
  intro c hc
  rcases List.mem_append.mp hc with hc | hc
  · exact hinit c hc
  · rwa [List.mem_singleton.mp hc]

/-! ## Writing the current block -/

theorem writeFile_append {file d : List UInt8} (hd : d ≠ []) (hpos : file.length ≤ pos) :
    writeFile file pos d = file ++ List.replicate (pos - file.length) 0 ++ d := by
  rw [writeFile, if_neg hd, List.take_of_length_le hpos, List.drop_eq_nil_of_le (by omega),
    List.append_nil]

/-- The data file with what is not yet written of the current block. -/
def stream (f : LogFile) : List UInt8 :=
  match f.m_fd, f.currentBlock with
  | some pos, some (_, b) => writeFile f.file pos ((b.data.getD []).drop b.writedSize)
  | _, _ => f.file

theorem stream_eq (hpos : pos ∈ f.m_fd) (hb : f.currentBlock = some (id, b)) (hd : data ∈ b.data) :
    f.stream = writeFile f.file pos (data.drop b.writedSize) := by
  simp only [stream, Option.mem_def.mp hpos, hb, Option.mem_def.mp hd, Option.getD_some]

/-- After `writeCurrentBlock` the file has all of the current block. -/
structure Written (f g : LogFile) : Prop where
  same : g = { f with m_blocks := g.m_blocks, m_fd := g.m_fd, file := g.file }
  file : g.file = f.stream
  fd : ∃ pos ∈ g.m_fd, g.file.length ≤ pos

/-- The bytes of the current block that are not in the file yet are written. -/
theorem writeCurrentBlock_ok (hb : f.currentBlock = some (id, b)) (hpos : pos ∈ f.m_fd)
    (hle : f.file.length ≤ pos) (hd : data ∈ b.data) (hlength : data.length = b.size)
    (hwrited : b.writedSize ≤ b.size) :
    ∃ g, f.writeCurrentBlock = some (.ok g) ∧ f.Written g ∧
      g.m_blocks = f.m_blocks.map (·.set id { b with writedSize := b.size }) := by
  have hstream := stream_eq hpos hb hd
  by_cases hsize : b.size = b.writedSize
  · have hnothing : data.drop b.writedSize = [] := List.drop_eq_nil_of_le (by omega)
    rw [hnothing, writeFile, if_pos rfl] at hstream
    refine ⟨f, ?_, ⟨rfl, hstream.symm, pos, hpos, hle⟩, ?_⟩
    · simp [LogFile.writeCurrentBlock, hb, hsize]
    · cases hblocks : f.m_blocks with
      | none => rfl
      | some blocks =>
        have hget : blocks[id]? = some b := by
          simp only [currentBlock, hblocks, Option.bind_eq_bind, Option.bind_some] at hb
          cases hid : f.m_currentBlock with
          | none => simp [hid] at hb
          | some i =>
            cases hi : blocks[i]? with
            | none => simp [hid, hi] at hb
            | some c =>
              simp only [hid, hi, Option.bind_some, Option.pure_def, Option.some.injEq,
                Prod.mk.injEq] at hb
              rw [← hb.1, hi, hb.2]
        obtain ⟨hlt, hget⟩ := List.getElem?_eq_some_iff.mp hget
        have hsame : { b with writedSize := b.size } = blocks[id] := by
          cases b
          simp_all
        rw [hsame]
        simp
  · have hlt : ¬ b.size < b.writedSize := Nat.not_lt.mpr hwrited
    have hsome : data.drop b.writedSize ≠ [] := by
      rw [Ne, List.drop_eq_nil_iff]
      omega
    have hwrite : f.writeCurrentBlock = some (.ok
        { f.setBlock id { b with writedSize := b.size } with
          file := writeFile f.file pos (data.drop b.writedSize)
          m_fd := some (pos + (data.drop b.writedSize).length) }) := by
      simp only [LogFile.writeCurrentBlock, hb, Option.bind_eq_bind, Option.bind_some,
        if_neg hsize, Option.mem_def.mp hd, if_neg hlt, Option.mem_def.mp hpos]
      rfl
    refine ⟨_, hwrite, ⟨rfl, hstream.symm, _, rfl, ?_⟩, rfl⟩
    simp only [writeFile_append hsome hle, List.length_append, List.length_replicate,
      List.length_drop]
    omega

theorem Kept.writeCurrentBlock (h : f.Kept (init ++ [b])) :
    ∃ g, f.writeCurrentBlock = some (.ok g) ∧ f.Written g ∧ f.m_offset ≤ g.file.length ∧
      g.m_blocks = some (init ++ [{ b with writedSize := b.size }]) := by
  obtain ⟨pos, hpos, hle, hcurrent⟩ := h.current_block
  obtain ⟨d, hd, -⟩ := hcurrent.data
  have hlength := h.data b (by simp) d hd
  obtain ⟨g, hwrite, hwritten, hblocks⟩ :=
    writeCurrentBlock_ok h.currentBlock_eq hpos hle hd hlength hcurrent.writed
  refine ⟨g, hwrite, hwritten, ?_, ?_⟩
  · have hfile := hcurrent.file
    have hlast := h.last b (by simp)
    rw [hwritten.file, stream_eq hpos h.currentBlock_eq hd]
    by_cases hempty : d.drop b.writedSize = []
    · rw [hempty, writeFile, if_pos rfl]
      have := List.drop_eq_nil_iff.mp hempty
      omega
    · rw [writeFile_append hempty hle]
      simp only [List.length_append, List.length_replicate, List.length_drop]
      omega
  · rw [hblocks, h.blocks_eq]
    simp

/-! ## Appending -/

/-- What stays of a file in every operation. -/
structure Frame (f f' : LogFile) : Prop where
  fileId : f'.m_fileId = f.m_fileId
  begin_eq : f'.m_beginLogIndex = f.m_beginLogIndex
  next : f'.m_next = f.m_next

theorem entryLogIndex_bytes (hfits : e.logIndex.Fits) (rest : List UInt8) :
    22 ≤ (e.bytes ++ rest).length ∧ entryLogIndex (e.bytes ++ rest) 0 = e.logIndex := by
  have hhead : e.head.bytes.length = 6 := by simp [RaftRpcHead.bytes]
  constructor
  · simp only [List.length_append, LogEntryRpcBase.length_bytes, LogEntryRpcBase.size,
      logEntryRpcBaseSize]
    omega
  · have hbytes : e.bytes ++ rest = e.head.bytes ++ (e.logIndex.bytes ++
        (e.prevRecordLogIndex.bytes ++ LE.bytes 8 e.leaderCommitIndex ++ e.body ++ rest)) := by
      simp [LogEntryRpcBase.bytes]
    have hslice : (e.bytes ++ rest).slice 6 16 = e.logIndex.bytes := by
      rw [hbytes, List.slice, List.drop_left' hhead]
      exact List.take_left' (LogIndexInfo.length_bytes _)
    rw [entryLogIndex, Nat.zero_add, hslice]
    have hread := LogIndexInfo.ofBytes_bytes hfits []
    rwa [List.append_nil] at hread

private theorem entryLogIndex_append {d x : List UInt8} {off : Nat} (h : off + 22 ≤ d.length) :
    entryLogIndex (d ++ x) off = entryLogIndex d off := by
  rw [entryLogIndex, entryLogIndex, List.slice_append_left _ (by omega)]

theorem bytes_ne_nil : e.bytes ≠ [] := by
  rw [Ne, ← List.length_eq_zero_iff, LogEntryRpcBase.length_bytes, LogEntryRpcBase.size,
    logEntryRpcBaseSize]
  omega

theorem Kept.stream_grows (b' : Block) (h : f.Kept (init ++ [b])) {x : List UInt8}
    (hx : x ≠ []) (hdata : ∀ d ∈ b.data, b'.data = some (d ++ x)) (hwrited : b'.writedSize = b.writedSize)
    {g : LogFile} (hfile : g.file = f.file) (hfd : g.m_fd = f.m_fd)
    {i : Nat} (hb : g.currentBlock = some (i, b')) : ∃ gap, g.stream = f.stream ++ gap ++ x := by
  obtain ⟨pos, hpos, hle, hcurrent⟩ := h.current_block
  obtain ⟨d, hd, -⟩ := hcurrent.data
  have hlength := h.data b (by simp) d hd
  have hstream := stream_eq hpos h.currentBlock_eq hd
  have hstream' := stream_eq (hfd ▸ hpos) hb (hdata d hd)
  have hdrop : (d ++ x).drop b'.writedSize = d.drop b.writedSize ++ x := by
    rw [hwrited, List.drop_append_of_le_length (hlength ▸ hcurrent.writed)]
  rw [hdrop, hfile, writeFile_append (by simp [hx]) hle] at hstream'
  by_cases hempty : d.drop b.writedSize = []
  · refine ⟨List.replicate (pos - f.file.length) 0, ?_⟩
    rw [hstream', hstream, hempty, writeFile, if_pos rfl, List.nil_append]
  · refine ⟨[], ?_⟩
    rw [hstream', hstream, writeFile_append hempty hle, List.append_nil, List.append_assoc]
    simp

/-- An entry behind the last one of the current block. -/
theorem Kept.append_block (h : f.Kept (init ++ [b])) (hb : b.append e = some b')
    (hoffset : f.m_offset + e.size < 2 ^ 31) (hlt : f.m_logIndex < e.logIndex) :
    ((f.setBlock init.length b').stored e).Kept (init ++ [b']) ∧
      ∃ gap, ((f.setBlock init.length b').stored e).stream = f.stream ++ gap ++ e.bytes := by
  obtain ⟨pos, hpos, hle, hcurrent⟩ := h.current_block
  obtain ⟨d, hd, hhead, hindex⟩ := hcurrent.data
  have hlength := h.data b (by simp) d hd
  have hlast := h.last b (by simp)
  simp only [Block.append, Option.mem_def.mp hd, Option.bind_eq_bind, Option.bind_some] at hb
  split at hb
  · next hroom =>
    cases hb
    constructor
    · constructor
      case toLaid =>
        constructor
        case blocks_eq => exact h.setBlock_blocks
        case count => simpa [setBlock, stored] using h.count
        case current => simpa [setBlock, stored] using h.current
        case ordered => exact ordered_last h.ordered rfl
        case last =>
          simp only [List.getLast?_append, List.getLast?_singleton, Option.some_or, Option.mem_def,
            Option.some.injEq, forall_eq', stored, setBlock]
          omega
        case offset_lt =>
          simp only [stored, setBlock]
          omega
        case data =>
          apply forall_mem_snoc
          · exact fun c hc => h.data c (List.mem_append_left _ hc)
          · rintro d' ⟨⟩
            rw [List.length_append, hlength, LogEntryRpcBase.length_bytes]
        case disk =>
          apply forall_mem_snoc
          · exact fun c hc => h.disk c (List.mem_append_left _ hc)
          · exact fun hnone => nomatch hnone
      -- only the bytes in memory grow, so what is written of the block stays as it was
      case fd =>
        refine ⟨pos, hpos, hle, ?_, by simp⟩
        simp only [List.getLast?_append, List.getLast?_singleton, Option.some_or, Option.mem_def,
          Option.some.injEq, forall_eq']
        constructor
        · refine ⟨_, rfl, ?_, ?_⟩
          · rw [List.length_append]
            omega
          · rw [entryLogIndex_append hhead]
            exact hindex
        · exact Nat.le_add_right_of_le hcurrent.writed
        · exact hcurrent.file
      case sorted => exact sorted_last h.sorted rfl
      case bounds =>
        have hold : ∀ c ∈ init ++ [b],
            f.m_beginLogIndex ≤ c.idx.logIndex ∧ c.idx.logIndex ≤ e.logIndex :=
          fun c hc => ⟨(h.bounds c hc).1, (h.bounds c hc).2.trans hlt.le⟩
        exact forall_mem_snoc (fun c hc => hold c (List.mem_append_left _ hc)) (hold b (by simp))
    · refine h.stream_grows { b with data := some (d ++ e.bytes), size := b.size + e.size }
        bytes_ne_nil ?_ rfl rfl rfl (i := init.length) ?_
      · intro d' hd'
        rw [Option.some.inj (hd.symm.trans hd')]
      · simp [currentBlock, stored, setBlock, h.blocks_eq, h.current]
  · cases hb

/-- The file with a further block as its current one. -/
def withBlock (f : LogFile) (left : List Block) (b : Block) : LogFile :=
  { f with
    m_blocks := some (left ++ [b])
    m_blockCount := f.m_blockCount + 1
    m_currentBlock := some f.m_blockCount }

theorem addBlock_nil (cfg : LogConfig) (b : Block) (hblocks : f.m_blocks = some [])
    (hcurrent : f.m_currentBlock = none)
    (hmax : f.m_blockCount < cfg.maxBlockCount) :
    f.addBlock cfg b = some (f.withBlock [] b) := by
  simp [addBlock, hblocks, hcurrent, hmax, withBlock]

theorem modify_last (g : Block → Block) : (init ++ [b]).modify init.length g = init ++ [g b] := by
  induction init with
  | nil => rfl
  | cons c init ih => simpa using ih

theorem addBlock_snoc (cfg : LogConfig) (b' : Block) (hblocks : f.m_blocks = some (init ++ [b]))
    (hcurrent : f.m_currentBlock = some init.length) (hmax : f.m_blockCount < cfg.maxBlockCount) :
    f.addBlock cfg b' =
      some (f.withBlock (init ++ [{ b.close with next := some f.m_blockCount }]) b') := by
  simp [addBlock, hblocks, hcurrent, hmax, withBlock, modify_last]

/-- The file `g` with blocks that are left for a new one. -/
structure Left (f g : LogFile) (left : List Block) : Prop extends f.Written g where
  offset_le : f.m_offset ≤ g.file.length
  count : f.m_blockCount = left.length
  ordered : left.Pairwise Before
  ends : ∀ b ∈ left, b.idx.offset + b.size ≤ f.m_offset
  data : ∀ b ∈ left, ∀ d ∈ b.data, d.length = b.size
  sorted : left.Pairwise fun b c => b.idx.logIndex < c.idx.logIndex
  bounds : ∀ b ∈ left, f.m_beginLogIndex ≤ b.idx.logIndex ∧ b.idx.logIndex ≤ f.m_logIndex

/-- The file that stores an entry in a new block. -/
def newBlock (f g : LogFile) (cfg : LogConfig) (left : List Block) (e : LogEntryRpcBase) : LogFile :=
  ((g.writeIndex ⟨f.m_offset, e.logIndex⟩).withBlock left
    (Block.new cfg.m_defaultBlockSize f.m_offset e)).stored e

/-- A new block is begun after the current one is written. -/
theorem Kept.storeInNewBlock (h : f.Kept blocks) (hmax : blocks.length < cfg.maxBlockCount) :
    ∃ g left, f.Left g left ∧ ∀ e, f.storeInNewBlock cfg e = some (.ok (newBlock f g cfg left e)) := by
  have hcount : f.m_blockCount < cfg.maxBlockCount := by
    rw [h.count]
    exact hmax
  -- the first block of a file has nothing before it to be written and closed
  rcases List.eq_nil_or_concat' blocks with rfl | ⟨init, b, rfl⟩
  · obtain ⟨pos, hpos, hle, -, hempty⟩ := h.fd
    have hnone : f.m_currentBlock = none := h.current
    have hstream : f.file = f.stream := by
      rw [stream, h.currentBlock_nil]
      cases f.m_fd <;> rfl
    refine ⟨f, [], ⟨⟨rfl, hstream, pos, hpos, hle⟩, hempty rfl, h.count, .nil, ?_, ?_, .nil, ?_⟩, ?_⟩
    iterate 3 simp
    intro e
    have hadd := addBlock_nil (f := f.writeIndex ⟨f.m_offset, e.logIndex⟩) cfg
      (Block.new cfg.m_defaultBlockSize f.m_offset e) h.blocks_eq hnone hcount
    simp only [LogFile.storeInNewBlock, appendToNewBlock, if_pos hnone, dsReturnIfFailed_ok]
    exact congrArg (fun g => dsReturnIfFailed (g.map .ok) fun f => some (.ok (f.stored e))) hadd
  · obtain ⟨g, hwrite, hwritten, hoffset_le, hblocks⟩ := h.writeCurrentBlock
    have hcurrent : f.m_currentBlock = some init.length := by simpa using h.current
    have hsame : g.m_offset = f.m_offset ∧ g.m_blockCount = f.m_blockCount ∧
        g.m_currentBlock = f.m_currentBlock := by
      rw [hwritten.same]
      exact ⟨rfl, rfl, rfl⟩
    obtain ⟨hgoffset, hgcount, hgcurrent⟩ := hsame
    have hbefore := (List.pairwise_append.mp h.ordered).2.2
    have hlast := h.last b (by simp)
    let left := init ++ [{ Block.close { b with writedSize := b.size } with
      next := some f.m_blockCount }]
    have hleft : f.Left g left := by
      constructor
      case toWritten => exact hwritten
      case offset_le => exact hoffset_le
      case count => simpa [left] using h.count
      case ordered => exact ordered_last h.ordered rfl
      case ends =>
        apply forall_mem_snoc
        · exact fun c hc => (hbefore c hc b (by simp)).trans ((Nat.le_add_right _ _).trans hlast.le)
        · exact hlast.le
      case data =>
        apply forall_mem_snoc
        · exact fun c hc => h.data c (List.mem_append_left _ hc)
        · rintro d ⟨⟩
      case sorted => exact sorted_last h.sorted rfl
      case bounds =>
        exact forall_mem_snoc (fun c hc => h.bounds c (List.mem_append_left _ hc))
          (h.bounds b (by simp))
    refine ⟨g, left, hleft, ?_⟩
    intro e
    have hadd := addBlock_snoc (f := g.writeIndex ⟨g.m_offset, e.logIndex⟩) cfg
      (Block.new cfg.m_defaultBlockSize g.m_offset e) hblocks (hgcurrent.trans hcurrent)
      (hgcount.trans_lt hcount)
    have hsome : ¬ f.m_currentBlock = none := by simp [hcurrent]
    simp only [LogFile.storeInNewBlock, appendToNewBlock, if_neg hsome, hwrite, dsReturnIfFailed_ok]
    refine (congrArg (fun g => dsReturnIfFailed (g.map .ok) fun f => some (.ok (f.stored e))) hadd).trans
      ?_
    simp only [newBlock, left, hgoffset]
    have hcount' : (g.writeIndex ⟨f.m_offset, e.logIndex⟩).m_blockCount = f.m_blockCount := hgcount
    rw [hcount']
    rfl

/-- The first entry of a new block, behind the blocks that are written. -/
theorem Left.newBlock {g : LogFile} {left : List Block} (cfg : LogConfig) (h : f.Left g left)
    (hoffset : f.m_offset + e.size < 2 ^ 31) (hlt : f.m_logIndex < e.logIndex)
    (hfits : e.logIndex.Fits) (hbegin : f.m_beginLogIndex ≤ e.logIndex) :
    (newBlock f g cfg left e).Kept (left ++ [Block.new cfg.m_defaultBlockSize f.m_offset e]) ∧
      ∃ gap, (newBlock f g cfg left e).stream = f.stream ++ gap ++ e.bytes := by
  obtain ⟨pos, hpos, hle⟩ := h.fd
  obtain ⟨hlength, hindex⟩ := entryLogIndex_bytes hfits []
  rw [List.append_nil] at hlength hindex
  have hsame : g.m_offset = f.m_offset ∧ g.m_blockCount = f.m_blockCount ∧
      g.m_beginLogIndex = f.m_beginLogIndex := by
    rw [h.same]
    exact ⟨rfl, rfl, rfl⟩
  obtain ⟨hgoffset, hgcount, hgbegin⟩ := hsame
  constructor
  · constructor
    case toLaid =>
      constructor
      case blocks_eq => rfl
      case count => simpa [LogFile.newBlock, stored, withBlock, writeIndex, hgcount] using h.count
      case current => simpa [LogFile.newBlock, stored, withBlock, writeIndex, hgcount] using h.count
      case ordered =>
        refine List.pairwise_append.mpr ⟨h.ordered, List.pairwise_singleton _ _, ?_⟩
        intro b hb c hc
        rw [List.mem_singleton.mp hc]
        exact h.ends b hb
      case last =>
        simp only [List.getLast?_append, List.getLast?_singleton, Option.some_or, Option.mem_def,
          Option.some.injEq, forall_eq', LogFile.newBlock, stored, withBlock, writeIndex, hgoffset,
          Block.new]
        omega
      case offset_lt =>
        simp only [LogFile.newBlock, stored, withBlock, writeIndex, hgoffset]
        omega
      case data =>
        apply forall_mem_snoc h.data
        rintro d ⟨⟩
        exact e.length_bytes
      -- the blocks that are left end before the offset, which is inside the file
      case disk =>
        apply forall_mem_snoc
        · exact fun b hb _ => (h.ends b hb).trans h.offset_le
        · exact fun hnone => nomatch hnone
    case fd =>
      refine ⟨pos, hpos, hle, ?_, by simp⟩
      simp only [List.getLast?_append, List.getLast?_singleton, Option.some_or, Option.mem_def,
        Option.some.injEq, forall_eq']
      exact ⟨⟨_, rfl, hlength, hindex⟩, Nat.zero_le _, h.offset_le⟩
    case sorted =>
      refine List.pairwise_append.mpr ⟨h.sorted, List.pairwise_singleton _ _, ?_⟩
      intro b hb c hc
      rw [List.mem_singleton.mp hc]
      exact (h.bounds b hb).2.trans_lt hlt
    case bounds =>
      apply forall_mem_snoc
      · intro b hb
        exact ⟨hgbegin.trans_le (h.bounds b hb).1, (h.bounds b hb).2.trans hlt.le⟩
      · exact ⟨hgbegin.trans_le hbegin, le_rfl⟩
  -- the gap is what a write behind the end of the file fills with zeros
  · refine ⟨List.replicate (pos - g.file.length) 0, ?_⟩
    have hcurrent : (LogFile.newBlock f g cfg left e).currentBlock =
        some (left.length, Block.new cfg.m_defaultBlockSize f.m_offset e) := by
      simp [currentBlock, LogFile.newBlock, stored, withBlock, writeIndex, hgcount, h.count]
    rw [stream_eq (f := LogFile.newBlock f g cfg left e) hpos hcurrent rfl, ← h.file]
    exact writeFile_append bytes_ne_nil hle

/-! ## `append` of a file -/

/-- There is no room for the entry in the file. -/
def IsFull (f : LogFile) (cfg : LogConfig) (e : LogEntryRpcBase) : Prop :=
  cfg.m_defaultLogFileSize ≤ (f.m_offset + e.size) % 2 ^ 32 ∨
    ∃ p ∈ f.currentBlock, p.2.volumn < (p.2.size + e.size) % 2 ^ 32 + raftRpcHeadSize ∧
      cfg.maxBlockCount ≤ f.m_blockCount + 1

/-- The file has room for the entry: in the current block or in a new one. -/
def Takes (f : LogFile) (cfg : LogConfig) (e : LogEntryRpcBase) : Prop :=
  (f.m_offset + e.size) % 2 ^ 32 < cfg.m_defaultLogFileSize ∧
    (f.m_currentBlock = none ∧ f.m_blocks ≠ none ∧ f.m_blockCount < cfg.maxBlockCount ∨
      ∃ p ∈ f.currentBlock,
        (p.2.volumn < (p.2.size + e.size) % 2 ^ 32 + raftRpcHeadSize ∧
          f.m_blockCount + 1 < cfg.maxBlockCount) ∨
        ((p.2.size + e.size) % 2 ^ 32 + raftRpcHeadSize ≤ p.2.volumn ∧
          p.2.size + e.size ≤ p.2.volumn))

/-- What storing an entry does to a file. -/
structure Stores (f f' : LogFile) (e : LogEntryRpcBase) : Prop where
  kept : ∃ blocks, f'.Kept blocks ∧ blocks ≠ []
  logIndex : f'.m_logIndex = e.logIndex
  frame : f.Frame f'
  stream : ∃ gap, f'.stream = f.stream ++ gap ++ e.bytes

/-- A file that has room takes the entry that follows its last one. -/
theorem Kept.append_of_takes (h : f.Kept blocks) (hprev : f.m_logIndex = e.prevRecordLogIndex)
    (htakes : f.Takes cfg e) :
    ∃ f', f.append cfg e = some (.ok f') ∧ (e.Proper → cfg.m_defaultLogFileSize ≤ 2 ^ 31 →
      f.m_beginLogIndex ≤ e.logIndex → f.Stores f' e) := by
  obtain ⟨hsize, hroom⟩ := htakes
  rw [append, if_neg (not_not_intro hprev), if_neg (Nat.not_le.mpr hsize), _append]
  have hoffset : e.Proper → cfg.m_defaultLogFileSize ≤ 2 ^ 31 → f.m_offset + e.size < 2 ^ 31 := by
    intro hproper hcfg
    have := h.offset_lt
    have := hproper.size_lt
    omega
  have hlt : e.Proper → f.m_logIndex < e.logIndex := fun hproper => hprev ▸ hproper.prev_lt
  -- a new block is made in the first append and when the current block is full
  have hnew : blocks.length < cfg.maxBlockCount → ∃ f', f.storeInNewBlock cfg e = some (.ok f') ∧
      (e.Proper → cfg.m_defaultLogFileSize ≤ 2 ^ 31 → f.m_beginLogIndex ≤ e.logIndex →
        f.Stores f' e) := by
    intro hmax
    obtain ⟨g, left, hleft, hstore⟩ := h.storeInNewBlock hmax
    refine ⟨_, hstore e, ?_⟩
    intro hproper hcfg hbegin
    obtain ⟨hkept, hstream⟩ := hleft.newBlock cfg (hoffset hproper hcfg) (hlt hproper)
      hproper.fits hbegin
    refine ⟨⟨_, hkept, by simp⟩, rfl, ?_, hstream⟩
    have hsame := hleft.same
    rw [newBlock, hsame]
    exact ⟨rfl, rfl, rfl⟩
  rcases List.eq_nil_or_concat' blocks with rfl | ⟨init, b, rfl⟩
  · have hnone : f.m_currentBlock = none := h.current
    rw [if_pos hnone]
    apply hnew
    simp only [hnone, h.currentBlock_nil, h.count, true_and, Option.mem_def, reduceCtorEq, false_and,
      exists_false, or_false] at hroom
    exact hroom.2
  · have hcurrent : f.m_currentBlock = some init.length := by simpa using h.current
    have hcount := h.count
    simp only [hcurrent, h.currentBlock_eq, reduceCtorEq, false_and, false_or, Option.mem_def,
      Option.some.injEq, exists_eq_left', if_false, Option.bind_eq_bind, Option.bind_some] at hroom ⊢
    by_cases hvolumn : b.volumn < (b.size + e.size) % 2 ^ 32 + raftRpcHeadSize
    · rcases hroom with ⟨-, hmax⟩ | ⟨hle, -⟩
      · rw [if_pos hvolumn, if_neg (Nat.not_le.mpr hmax)]
        apply hnew
        omega
      · omega
    · obtain ⟨d, hd, -⟩ := (h.current_block).choose_spec.2.2.data
      rcases hroom with ⟨hlt', -⟩ | ⟨-, hfits⟩
      · exact absurd hlt' hvolumn
      · have hb : b.append e = some { b with data := some (d ++ e.bytes), size := b.size + e.size } := by
          simp [Block.append, Option.mem_def.mp hd, hfits]
        rw [if_neg hvolumn, hb]
        refine ⟨_, rfl, ?_⟩
        intro hproper hcfg _
        obtain ⟨hkept, hstream⟩ := h.append_block hb (hoffset hproper hcfg) (hlt hproper)
        exact ⟨⟨_, hkept, by simp⟩, rfl, ⟨rfl, rfl, rfl⟩, hstream⟩

theorem append_of_full (hprev : f.m_logIndex = e.prevRecordLogIndex)
    (hfull : f.IsFull cfg e) : f.append cfg e = some (.error .full) := by
  rw [append, if_neg (not_not_intro hprev)]
  by_cases hsize : cfg.m_defaultLogFileSize ≤ (f.m_offset + e.size) % 2 ^ 32
  · rw [if_pos hsize]
  · rcases hfull with hle | ⟨⟨id, b⟩, hb, hvolumn, hmax⟩
    · exact absurd hle hsize
    · have hcurrent : ¬ f.m_currentBlock = none := by
        intro hnone
        simp [currentBlock, hnone] at hb
      rw [if_neg hsize, _append, if_neg hcurrent, Option.mem_def.mp hb]
      simp only [Option.bind_eq_bind, Option.bind_some]
      rw [if_pos hvolumn, if_pos hmax]
      rfl

theorem append_of_neither (hprev : f.m_logIndex = e.prevRecordLogIndex) (htakes : ¬ f.Takes cfg e)
    (hfull : ¬ f.IsFull cfg e) : f.append cfg e = none := by
  have hsize : (f.m_offset + e.size) % 2 ^ 32 < cfg.m_defaultLogFileSize :=
    Nat.lt_of_not_le fun hle => hfull (.inl hle)
  rw [append, if_neg (not_not_intro hprev), if_neg (Nat.not_le.mpr hsize), _append]
  by_cases hnone : f.m_currentBlock = none
  · rw [if_pos hnone]
    have hadd : (f.writeIndex ⟨f.m_offset, e.logIndex⟩).addBlock cfg
        (Block.new cfg.m_defaultBlockSize f.m_offset e) = none := by
      cases hblocks : f.m_blocks with
      | none => simp [addBlock, writeIndex, hblocks]
      | some blocks =>
        have hmax : ¬ f.m_blockCount < cfg.maxBlockCount := fun hlt =>
          htakes ⟨hsize, .inl ⟨hnone, by simp [hblocks], hlt⟩⟩
        simp [addBlock, writeIndex, hblocks, hmax]
    simp only [LogFile.storeInNewBlock, appendToNewBlock, if_pos hnone, dsReturnIfFailed_ok]
    exact congrArg (fun g => dsReturnIfFailed (g.map .ok) fun f => some (.ok (f.stored e))) hadd
  · rw [if_neg hnone]
    cases hb : f.currentBlock with
    | none => rfl
    | some p =>
      obtain ⟨id, b⟩ := p
      have hvolumn : ¬ (b.size + e.size) % 2 ^ 32 + raftRpcHeadSize > b.volumn := by
        intro hgt
        by_cases hmax : f.m_blockCount + 1 ≥ cfg.maxBlockCount
        · exact hfull (.inr ⟨_, hb, hgt, hmax⟩)
        · exact htakes ⟨hsize, .inr ⟨_, hb, .inl ⟨hgt, Nat.lt_of_not_le hmax⟩⟩⟩
      have hroom : ¬ b.size + e.size ≤ b.volumn := fun hle =>
        htakes ⟨hsize, .inr ⟨_, hb, .inr ⟨Nat.le_of_not_lt hvolumn, hle⟩⟩⟩
      have happend : b.append e = none := by
        cases hd : b.data <;> simp [Block.append, hd, hroom]
      simp only [Option.bind_eq_bind, Option.bind_some, if_neg hvolumn, happend, Option.bind_none]

theorem append_of_ne (hprev : f.m_logIndex ≠ e.prevRecordLogIndex) :
    f.append cfg e = some (.error
      (if f.m_logIndex < e.prevRecordLogIndex then .prevNotMatch else .rollback)) := by
  rw [append, if_pos hprev]
  split <;> rfl

/-! ## Finishing and closing -/

/-- The current block has room for the mark. -/
def CanFinish (f : LogFile) : Prop := ∃ p ∈ f.currentBlock, p.2.size + raftRpcHeadSize ≤ p.2.volumn

/-- What finishing or closing a file keeps of it. -/
structure Ended (f f' : LogFile) : Prop where
  fd : f'.m_fd = none
  logIndex : f'.m_logIndex = f.m_logIndex
  frame : f.Frame f'
  stream : f.stream <+: f'.stream

theorem stream_of_no_fd (h : f.m_fd = none) : f.stream = f.file := by rw [stream, h]

theorem finish_of_not (h : ¬ f.CanFinish) : f.finish = none := by
  have hmark : f.markEnd = none := by
    cases hb : f.currentBlock with
    | none => simp [markEnd, hb]
    | some p =>
      have hroom : ¬ p.2.size + raftRpcHeadSize ≤ p.2.volumn := fun hle => h ⟨p, hb, hle⟩
      cases hd : p.2.data with
      | none => simp [markEnd, hb, hd]
      | some d => simp [markEnd, hb, hd, hroom]
  rw [finish, hmark]
  rfl

/-- A file with a current block can be finished. -/
theorem Kept.finish (h : f.Kept blocks) (hfinish : f.CanFinish) :
    ∃ f', f.finish = some (.ok f') ∧ f.Ended f' ∧ f'.m_blocks ≠ none := by
  obtain ⟨⟨id, b⟩, hb, hroom⟩ := hfinish
  rcases List.eq_nil_or_concat' blocks with rfl | ⟨init, c, rfl⟩
  · rw [h.currentBlock_nil] at hb
    cases hb
  · rw [h.currentBlock_eq] at hb
    cases hb
    obtain ⟨pos, hpos, hle, hcurrent⟩ := h.current_block
    obtain ⟨d, hd, -⟩ := hcurrent.data
    have hlength := h.data b (by simp) d hd
    let b' : Block :=
      { b with data := some (d ++ endMark.bytes), size := b.size + raftRpcHeadSize }
    let g : LogFile := { f.setBlock init.length b' with
      m_offset := (f.m_offset + raftRpcHeadSize) % 2 ^ 32 }
    have hmark : f.markEnd = some g := by
      simp only [markEnd, h.currentBlock_eq, Option.bind_eq_bind, Option.bind_some,
        Option.mem_def.mp hd, if_pos hroom]
      rfl
    have hg : g.currentBlock = some (init.length, b') := by
      simp [g, currentBlock, setBlock, h.blocks_eq, h.current]
    have hlen : (d ++ endMark.bytes).length = b'.size := by
      simp [b', hlength, endMark, RaftRpcHead.bytes, raftRpcHeadSize]
    obtain ⟨k, hwrite, hwritten, hblocks⟩ := writeCurrentBlock_ok (f := g) hg hpos hle rfl hlen
      (Nat.le_add_right_of_le hcurrent.writed)
    have hk : k.currentBlock = some (init.length, { b' with writedSize := b'.size }) := by
      have hkcurrent : k.m_currentBlock = f.m_currentBlock := by
        rw [hwritten.same]
        rfl
      have hgblocks : g.m_blocks = some (init ++ [b']) := h.setBlock_blocks
      simp [currentBlock, hblocks, hgblocks, hkcurrent, h.current]
    refine ⟨{ k.setBlock init.length (Block.close { b' with writedSize := b'.size }) with
      m_fd := none }, ?_, ⟨rfl, ?_, ?_, ?_⟩, ?_⟩
    · simp only [LogFile.finish, hmark, Option.bind_eq_bind, Option.bind_some, hwrite,
        dsReturnIfFailed_ok, leave, hk]
      rfl
    · rw [hwritten.same]
      rfl
    · rw [hwritten.same]
      exact ⟨rfl, rfl, rfl⟩
    · have hmark_ne : endMark.bytes ≠ [] := by decide
      obtain ⟨gap, hgrows⟩ := h.stream_grows b' hmark_ne
        (fun d' hd' => by rw [← Option.some.inj (hd.symm.trans hd')]) rfl (g := g) rfl rfl hg
      refine ⟨gap ++ endMark.bytes, ?_⟩
      calc f.stream ++ (gap ++ endMark.bytes)
        _ = g.stream := by rw [hgrows, List.append_assoc]
        _ = k.file := hwritten.file.symm
    · simp [setBlock, hblocks, g, h.blocks_eq]

/-- A file after `close`, with nothing to write. -/
def closedFile (f : LogFile) : LogFile :=
  { f with m_fd := none, m_indexFd := none, m_blocks := none }

theorem close_eq_of_no_fd (h : f.m_fd = none) : f.close = some f.closedFile := by
  simp [close, closeFd, h, closedFile]

theorem close_of_no_fd (h : f.m_fd = none) :
    ∃ f', f.close = some f' ∧ f.Ended f' ∧ f'.m_blocks = none := by
  refine ⟨f.closedFile, close_eq_of_no_fd h, ⟨rfl, rfl, ⟨rfl, rfl, rfl⟩, ?_⟩, rfl⟩
  rw [stream_of_no_fd h]
  exact List.prefix_rfl

/-- `close` ends the file and frees its blocks. -/
theorem Kept.close (h : f.Kept blocks) :
    ∃ f', f.close = some f' ∧ f.Ended f' ∧ f'.m_blocks = none := by
  obtain ⟨pos, hpos, hle, -⟩ := h.fd
  have hfd : ¬ f.m_fd = none := by simp [Option.mem_def.mp hpos]
  rcases List.eq_nil_or_concat' blocks with rfl | ⟨init, b, rfl⟩
  · have hnone : f.m_currentBlock = none := h.current
    refine ⟨{ f with m_fd := none, m_indexFd := none, m_blocks := none }, ?_,
      ⟨rfl, rfl, ⟨rfl, rfl, rfl⟩, ?_⟩, rfl⟩
    · simp [LogFile.close, closeFd, hnone]
    · have hstream : f.stream = f.file := by
        rw [stream, h.currentBlock_nil]
        cases f.m_fd <;> rfl
      rw [hstream]
      exact List.prefix_rfl
  · have hsome : ¬ f.m_currentBlock = none := by simp [h.current]
    obtain ⟨g, hwrite, hwritten, -⟩ := h.writeCurrentBlock
    have hclose : f.closeFd = some (if b.size > b.writedSize then g else f) := by
      simp only [closeFd, hfd, hsome, or_self, if_false, h.currentBlock_eq, Option.bind_eq_bind,
        Option.bind_some, hwrite]
      split <;> rfl
    have hfile : f.stream <+: (if b.size > b.writedSize then g else f).file := by
      split
      · exact hwritten.file ▸ List.prefix_rfl
      · next hsize =>
        obtain ⟨-, -, -, hcurrent⟩ := h.current_block
        obtain ⟨d, hd, -⟩ := hcurrent.data
        have hlength := h.data b (by simp) d hd
        have hstream : f.stream = f.file := by
          rw [stream_eq hpos h.currentBlock_eq hd, List.drop_eq_nil_of_le (by omega), writeFile,
            if_pos rfl]
        exact hstream ▸ List.prefix_rfl
    have hframe : f.Frame (if b.size > b.writedSize then g else f) ∧
        (if b.size > b.writedSize then g else f).m_logIndex = f.m_logIndex := by
      split
      · rw [hwritten.same]
        exact ⟨⟨rfl, rfl, rfl⟩, rfl⟩
      · exact ⟨⟨rfl, rfl, rfl⟩, rfl⟩
    rw [LogFile.close, hclose]
    exact ⟨_, rfl, ⟨rfl, hframe.2, ⟨hframe.1.1, hframe.1.2, hframe.1.3⟩, hfile⟩, rfl⟩

end LogFile

end DBStream.Native.CLUSTER
