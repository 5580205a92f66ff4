import DBStream.Spec.ClusterLogReturns

/-!
# Room for the end mark of a log file

`append` leaves room for the mark where an entry joins a block, but not where it opens one, whose
buffer has the bytes of the entry if these are more than a block's.  A block that `rollback` goes back
to has no buffer or one that `loadBlock` has made, of the bytes that were in the block.
-/

namespace DBStream.Native.CLUSTER.LogFile

variable {f f' g : LogFile} {cfg : LogConfig} {e : LogEntryRpcBase} {logIndex : LogIndexInfo}
  {blocks : List Block} {b b' : Block} {id : Nat}

/-! ## Calls -/

/-- A call of the one that writes a file. -/
inductive Call where
  | append (logEntry : LogEntryRpcBase)
  | rollback (logIndex : LogIndexInfo)

/-- A file and the bytes that are allocated for each of its blocks that has `data`. -/
structure Buffered where
  file : LogFile
  buffers : List Nat

/-- The constructor of a block allocates `volumn` bytes. -/
def appendBuffers (f' : LogFile) (buffers : List Nat) : List Nat :=
  if buffers.length < f'.m_blockCount then buffers ++ (f'.currentBlock.map (·.2.volumn)).toList
  else buffers

/-- `rollback` loads the block that it finds, and `loadBlock` allocates `size` bytes. -/
def loadBuffers (f : LogFile) (logIndex : LogIndexInfo) (buffers : List Nat) : List Nat :=
  match (f.findBlock logIndex).join with
  | none => buffers
  | some id =>
    match f.m_blocks.bind (·[id]?) with
    | none => buffers
    | some b => if b.data = none then buffers.set id b.size else buffers

/-- What a call leaves, also one that fails. -/
def Call.run (cfg : LogConfig) (s : Buffered) : Call → Option Buffered
  | .append logEntry => do
    match ← s.file.append cfg logEntry with
    | .ok f => return ⟨f, appendBuffers f s.buffers⟩
    | .error _ => return s
  | .rollback logIndex => do
    let (_, f) ← s.file.rollback logIndex
    return ⟨f, (loadBuffers s.file logIndex s.buffers).take f.m_blockCount⟩

/-- An entry that an empty file takes. -/
def Call.Admitted (cfg : LogConfig) : Call → Prop
  | .append logEntry => HEAD_SIZE + logEntry.size < cfg.m_defaultLogFileSize
  | .rollback _ => True

instance (cfg : LogConfig) (c : Call) : Decidable (c.Admitted cfg) :=
  match c with
  | .append logEntry =>
    inferInstanceAs (Decidable (HEAD_SIZE + logEntry.size < cfg.m_defaultLogFileSize))
  | .rollback _ => inferInstanceAs (Decidable True)

/-- A run of calls on a file that was created, each of which meets the condition `P`. -/
inductive CallRun (cfg : LogConfig) (P : LogFile → Call → Prop) (fileId : Nat) (p q : LogIndexInfo) :
    Buffered → Prop
  | create : CallRun cfg P fileId p q ⟨create fileId p q, []⟩
  | call {s s' : Buffered} {c : Call} (h : CallRun cfg P fileId p q s) (hadmitted : c.Admitted cfg)
      (hP : P s.file c) (hrun : c.run cfg s = some s') : CallRun cfg P fileId p q s'

/-- The current block has a buffer with room for the mark. -/
def Buffered.MarkRoom (s : Buffered) : Prop :=
  ∃ id b, s.file.currentBlock = some (id, b) ∧ b.data ≠ none ∧
    ∃ c ∈ s.buffers[id]?, b.size + raftRpcHeadSize ≤ c

/-! ## What an `append` that stores an entry has done -/

theorem writeCurrentBlock_same (h : f.writeCurrentBlock = some (.ok g)) :
    g = { f with m_blocks := g.m_blocks, m_fd := g.m_fd, file := g.file } ∧
      g.m_blocks.map List.length = f.m_blocks.map List.length := by
  obtain ⟨⟨id, b⟩, -, h⟩ := Option.bind_eq_some_iff.mp h
  dsimp only at h
  split at h
  · cases h
    exact ⟨rfl, rfl⟩
  · obtain ⟨data, -, h⟩ := Option.bind_eq_some_iff.mp h
    split at h
    · cases h
    · split at h
      · cases h
      · cases h
        refine ⟨rfl, ?_⟩
        simp only [setBlock, Option.map_map]
        congr 1
        funext blocks
        simp

/-- A block behind the others is the current one. -/
structure Opened (f f' : LogFile) (b : Block) : Prop where
  blocks : ∃ left, f'.m_blocks = some (left ++ [b]) ∧ f.m_blocks.map List.length = some left.length
  count : f'.m_blockCount = f.m_blockCount + 1
  current : f'.m_currentBlock = some f.m_blockCount

private theorem addBlock_opened (h : f.addBlock cfg b = some f') : f.Opened f' b := by
  obtain ⟨blocks, hblocks, h⟩ := Option.bind_eq_some_iff.mp h
  split at h
  · cases h
    refine ⟨⟨_, rfl, ?_⟩, rfl, rfl⟩
    rw [hblocks, Option.map_some]
    cases f.m_currentBlock with
    | none => rfl
    | some id => simp
  · cases h

theorem addBlock_lt (h : f.addBlock cfg b = some f') : f.m_blockCount < cfg.maxBlockCount := by
  obtain ⟨blocks, -, h⟩ := Option.bind_eq_some_iff.mp h
  split at h
  · next hmax => exact hmax
  · cases h

theorem storeInNewBlock_opened (h : f.storeInNewBlock cfg e = some (.ok f')) :
    f.Opened f' (Block.new cfg.m_defaultBlockSize f.m_offset e) := by
  obtain ⟨g, hnew, h⟩ := dsReturnIfFailed_eq_ok.mp h
  cases h
  obtain ⟨f₁, hwrite, hnew⟩ := dsReturnIfFailed_eq_ok.mp hnew
  -- what is written before leaves the place of the new block as it is
  have hsame : f₁ = { f with m_blocks := f₁.m_blocks, m_fd := f₁.m_fd, file := f₁.file } ∧
      f₁.m_blocks.map List.length = f.m_blocks.map List.length := by
    split at hwrite
    · cases hwrite
      exact ⟨rfl, rfl⟩
    · exact writeCurrentBlock_same hwrite
  obtain ⟨hf₁, hlength⟩ := hsame
  have hoffset : f₁.m_offset = f.m_offset := by rw [hf₁]
  have hcount : f₁.m_blockCount = f.m_blockCount := by rw [hf₁]
  obtain ⟨f₂, hadd, hnew⟩ := Option.map_eq_some_iff.mp hnew
  cases hnew
  rw [hoffset] at hadd
  obtain ⟨⟨left, hblocks, hleft⟩, hcount', hcurrent⟩ := addBlock_opened hadd
  exact ⟨⟨left, hblocks, hlength.symm.trans hleft⟩, hcount'.trans (congrArg (· + 1) hcount),
    hcurrent.trans (congrArg some hcount)⟩

def OpensBlock (f : LogFile) (e : LogEntryRpcBase) : Prop :=
  f.m_currentBlock = none ∨
    ∃ p ∈ f.currentBlock, p.2.volumn < (p.2.size + e.size) % 2 ^ 32 + raftRpcHeadSize

theorem append_cases (h : f.append cfg e = some (.ok f')) :
    (f.OpensBlock e ∧ f.storeInNewBlock cfg e = some (.ok f')) ∨
      ∃ id b b', f.currentBlock = some (id, b) ∧
        (b.size + e.size) % 2 ^ 32 + raftRpcHeadSize ≤ b.volumn ∧ b.append e = some b' ∧
        f' = (f.setBlock id b').stored e := by
  rw [append] at h
  split at h
  · split at h <;> cases h
  · split at h
    · cases h
    · rw [_append] at h
      split at h
      · next hnone => exact .inl ⟨.inl hnone, h⟩
      · obtain ⟨⟨id, b⟩, hb, h⟩ := Option.bind_eq_some_iff.mp h
        dsimp only at h
        split at h
        · next hvolumn =>
          split at h
          · cases h
          · exact .inl ⟨.inr ⟨_, hb, hvolumn⟩, h⟩
        · next hvolumn =>
          obtain ⟨b', hb', h⟩ := Option.bind_eq_some_iff.mp h
          cases h
          exact .inr ⟨id, b, b', hb, Nat.le_of_not_lt hvolumn, hb', rfl⟩

/-! ## What a `rollback` has done -/

private theorem truncateData_same (h : f.truncateData = .ok g) :
    g = { f with m_fd := g.m_fd, file := g.file } := by
  rw [truncateData] at h
  split at h
  · split at h
    · cases h
    · cases h
      rfl
  · dsimp only at h
    split at h
    · cases h
    · split at h <;> cases h <;> rfl

/-- The file ends at a place of a block, and may have lost the blocks behind it. -/
structure CutAt (f f' : LogFile) (id off : Nat) (blocks : List Block) (b : Block) : Prop where
  current : f'.m_currentBlock = if off = 0 then (if id = 0 then none else some (id - 1)) else some id
  offset : off = 0 → id = 0 → f'.m_offset = 0
  blocks : (f'.m_blocks = some (blocks.set id b) ∧ f'.m_blockCount = f.m_blockCount) ∨
    (f'.m_blocks = some ((leftBlocks blocks id off b).modify
      ((if off = 0 then id else id + 1) - 1) fun b => { b with next := none }) ∧
      f'.m_blockCount = if off = 0 then id else id + 1)

theorem rollback_cutAt {code : Option ErrorCode} {off : Nat} {data : List UInt8}
    (h : f.rollback logIndex = some (code, f')) (hfind : f.findBlock logIndex = some (some id))
    (hblocks : f.m_blocks = some blocks) (hb : blocks[id]? = some b)
    (hload : f.loadBlock b = .ok data) (hplace : Block.find data logIndex = some (some off)) :
    f.CutAt f' id off blocks (cutOff b data off) := by
  simp only [LogFile.rollback, hfind, hblocks, hb, hload, hplace, Option.bind_eq_bind,
    Option.bind_some, Option.pure_def] at h
  let n := if off = 0 then id else id + 1
  let b₁ : Block := { b with data := some (data.take off) }
  obtain ⟨indexFd, indexFile, hindex⟩ :=
    truncateIndex_eq (f := f.cutBlock blocks id off n b₁) (indexSize * n)
  rw [hindex] at h
  have hcurrent : (f.cutBlock blocks id off n b₁).m_currentBlock =
      if off = 0 then (if id = 0 then none else some (id - 1)) else some id := by
    simp only [cutBlock, n]
    split <;> simp [Nat.pos_iff_ne_zero]
  have hoffset : off = 0 → id = 0 → (f.cutBlock blocks id off n b₁).m_offset = 0 := by
    rintro rfl rfl
    rfl
  split at h
  · cases h
    exact ⟨hcurrent, hoffset, .inl ⟨rfl, rfl⟩⟩
  · next g htruncate =>
    have hsame := truncateData_same htruncate
    cases h
    refine ⟨?_, ?_, .inr ⟨?_, rfl⟩⟩
    · rw [hsame]
      exact hcurrent
    · intro hoff hid
      rw [hsame]
      exact hoffset hoff hid
    · rw [hsame]
      rfl

theorem rollback_cases {code : Option ErrorCode} (h : f.rollback logIndex = some (code, f')) :
    f' = f ∨ ∃ id blocks b data, f.findBlock logIndex = some (some id) ∧ f.m_blocks = some blocks ∧
      blocks[id]? = some b ∧ f.loadBlock b = .ok data ∧
      (f' = f.setBlock id { b with data := some data } ∨
        ∃ off, f.cutPlace logIndex = some (some (id, off)) ∧ off < data.length ∧
          f.CutAt f' id off blocks (cutOff b data off)) := by
  have hrollback := h
  obtain ⟨found, hfind, h⟩ := Option.bind_eq_some_iff.mp h
  cases found with
  | none =>
    cases h
    exact .inl rfl
  | some id =>
    obtain ⟨blocks, hblocks, h⟩ := Option.bind_eq_some_iff.mp h
    obtain ⟨b, hb, h⟩ := Option.bind_eq_some_iff.mp h
    cases hload : f.loadBlock b with
    | error code =>
      simp only [hload] at h
      cases h
      exact .inl rfl
    | ok data =>
      simp only [hload] at h
      obtain ⟨place, hplace, h⟩ := Option.bind_eq_some_iff.mp h
      refine .inr ⟨id, blocks, b, data, hfind, hblocks, hb, hload, ?_⟩
      cases place with
      | none =>
        cases h
        exact .inl rfl
      | some off =>
        refine .inr ⟨off, ?_, findFrom_lt hplace,
          rollback_cutAt hrollback hfind hblocks hb hload hplace⟩
        simp [cutPlace, hfind, hblocks, hb, hload, hplace]

/-! ## Buffers -/

variable {buffers : List Nat} {s s' : Buffered} {c : Call}

private theorem length_loadBuffers : (loadBuffers f logIndex buffers).length = buffers.length := by
  rw [loadBuffers]
  split
  · rfl
  · split
    · rfl
    · split
      · exact List.length_set
      · rfl

theorem loadBuffers_of_data (hblocks : f.m_blocks = some blocks) (hb : blocks[id]? = some b)
    (hdata : b.data ≠ none) : (loadBuffers f logIndex buffers)[id]? = buffers[id]? := by
  rw [loadBuffers]
  split
  · rfl
  · next i hi =>
    split
    · rfl
    · next c hc =>
      split
      · next hnone =>
        refine List.getElem?_set_ne ?_
        rintro rfl
        rw [hblocks, Option.bind_some, hb] at hc
        exact hdata (Option.some.inj hc ▸ hnone)
      · rfl

/-! ## What calls keep -/

/-- A block that has the buffer of its constructor, with room for the mark. -/
structure Reserved (buffers : List Nat) (id : Nat) (b : Block) : Prop where
  data : ∃ d ∈ b.data, d.length = b.size
  buffer : buffers[id]? = some b.volumn
  room : b.size + raftRpcHeadSize ≤ b.volumn
  volumn_lt : b.volumn < 2 ^ 32

/-- The current block has room for the mark, and a file without one is empty. -/
structure Marks (s : Buffered) : Prop where
  blocks : s.file.m_blocks.map List.length = some s.file.m_blockCount
  buffers : s.buffers.length = s.file.m_blockCount
  empty : s.file.m_currentBlock = none → s.file.m_offset ≤ HEAD_SIZE
  current : ∀ id ∈ s.file.m_currentBlock,
    ∃ b, s.file.currentBlock = some (id, b) ∧ Reserved s.buffers id b

theorem create_marks (fileId : Nat) (p q : LogIndexInfo) : Marks ⟨create fileId p q, []⟩ where
  blocks := rfl
  buffers := rfl
  empty := fun _ => Nat.le_refl _
  current := by simp [create]

/-- An entry that opens a block leaves room for the mark in a block of the default size; a rollback
    that cuts the file cuts the current block behind its first entry, or takes the whole file. -/
def Reserves (cfg : LogConfig) (f : LogFile) : Call → Prop
  | .append logEntry =>
    f.OpensBlock logEntry → logEntry.size + raftRpcHeadSize ≤ cfg.m_defaultBlockSize
  | .rollback logIndex => ∀ id off, f.cutPlace logIndex = some (some (id, off)) →
    (id = 0 ∧ off = 0) ∨ (f.m_currentBlock = some id ∧ off ≠ 0)

theorem currentBlock_of_get (hblocks : f.m_blocks = some blocks) (hid : f.m_currentBlock = some id)
    (hb : blocks[id]? = some b) : f.currentBlock = some (id, b) := by
  simp [currentBlock, hblocks, hid, hb]

theorem get_of_currentBlock (h : f.currentBlock = some (id, b)) :
    f.m_currentBlock = some id ∧ ∃ blocks, f.m_blocks = some blocks ∧ blocks[id]? = some b := by
  obtain ⟨blocks, hblocks, h⟩ := Option.bind_eq_some_iff.mp h
  obtain ⟨i, hi, h⟩ := Option.bind_eq_some_iff.mp h
  obtain ⟨c, hc, h⟩ := Option.bind_eq_some_iff.mp h
  cases h
  exact ⟨hi, blocks, hblocks, hc⟩

/-- An append leaves room for the mark in every block. -/
theorem Marks.append (h : Marks s) (hcfg : cfg.m_defaultBlockSize < 2 ^ 32)
    (hreserves : Reserves cfg s.file (.append e)) (happend : s.file.append cfg e = some (.ok f')) :
    Marks ⟨f', appendBuffers f' s.buffers⟩ := by
  -- a new block has the room by `Reserves`, the current one because `append` asks for it
  rcases append_cases happend with ⟨hopens, hstore⟩ | ⟨id, b, b', hb, hvolumn, hb', rfl⟩
  · obtain ⟨⟨left, hblocks, hleft⟩, hcount, hcurrent⟩ := storeInNewBlock_opened hstore
    have hroom : e.size + raftRpcHeadSize ≤ cfg.m_defaultBlockSize := hreserves hopens
    have hleft' : left.length = s.file.m_blockCount := Option.some.inj (hleft.symm.trans h.blocks)
    have hnew := currentBlock_of_get hblocks hcurrent
      (List.getElem?_append_right hleft'.le |>.trans (by rw [hleft', Nat.sub_self]; rfl))
    have hbuffers : appendBuffers f' s.buffers = s.buffers ++
        [(Block.new cfg.m_defaultBlockSize s.file.m_offset e).volumn] := by
      rw [appendBuffers, if_pos (by rw [h.buffers, hcount]; exact Nat.lt_succ_self _), hnew]
      rfl
    have hfits : ¬ e.size > cfg.m_defaultBlockSize := by omega
    rw [hbuffers]
    constructor
    case blocks => rw [hblocks, hcount, Option.map_some, List.length_append, hleft']; rfl
    case buffers => rw [List.length_append, h.buffers, hcount]; rfl
    case empty =>
      intro hnone
      rw [hcurrent] at hnone
      cases hnone
    case current =>
      intro i hi
      obtain rfl : s.file.m_blockCount = i := Option.some.inj (hcurrent.symm.trans hi)
      refine ⟨_, hnew, ⟨_, rfl, e.length_bytes⟩, ?_, ?_, ?_⟩
      · rw [List.getElem?_append_right h.buffers.le, h.buffers, Nat.sub_self]
        rfl
      · simpa [Block.new, if_neg hfits] using hroom
      · simpa [Block.new, if_neg hfits] using hcfg
  · obtain ⟨hid, blocks, hblocks, hget⟩ := get_of_currentBlock hb
    obtain ⟨b₁, hb₁, hreserved⟩ := h.current id hid
    cases hb.symm.trans hb₁
    have hlt := (List.getElem?_eq_some_iff.mp hget).1
    have hset : ((s.file.setBlock id b').stored e).m_blocks = some (blocks.set id b') := by
      simp [stored, setBlock, hblocks]
    have hbuffers : appendBuffers ((s.file.setBlock id b').stored e) s.buffers = s.buffers :=
      if_neg (by rw [h.buffers]; exact Nat.lt_irrefl _)
    obtain ⟨d, hd, hlength⟩ := hreserved.data
    simp only [Block.append, Option.mem_def.mp hd, Option.bind_eq_bind, Option.bind_some] at hb'
    split at hb'
    · next hfits =>
      cases hb'
      rw [hbuffers]
      constructor
      case blocks =>
        rw [hset, Option.map_some, List.length_set]
        exact (congrArg (Option.map List.length) hblocks).symm.trans h.blocks
      case buffers => exact h.buffers
      case empty =>
        intro hnone
        exact absurd (hid.symm.trans hnone) (by simp)
      case current =>
        intro i hi
        obtain rfl : id = i := Option.some.inj (hid.symm.trans hi)
        refine ⟨_, currentBlock_of_get hset hid (List.getElem?_set_self hlt), ?_⟩
        have hvolumn_lt := hreserved.volumn_lt
        have hmod : (b.size + e.size) % 2 ^ 32 = b.size + e.size := Nat.mod_eq_of_lt (by omega)
        refine ⟨⟨_, rfl, ?_⟩, hreserved.buffer, hmod ▸ hvolumn, hvolumn_lt⟩
        rw [List.length_append, hlength, e.length_bytes]
    · cases hb'

theorem Marks.loadBuffers (h : Marks s) (logIndex : LogIndexInfo) :
    Marks ⟨s.file, LogFile.loadBuffers s.file logIndex s.buffers⟩ where
  blocks := h.blocks
  buffers := length_loadBuffers.trans h.buffers
  empty := h.empty
  current := by
    intro i hi
    obtain ⟨b, hb, hreserved⟩ := h.current i hi
    obtain ⟨-, blocks, hblocks, hget⟩ := get_of_currentBlock hb
    obtain ⟨d, hd, -⟩ := hreserved.data
    refine ⟨b, hb, hreserved.data, ?_, hreserved.room, hreserved.volumn_lt⟩
    rw [loadBuffers_of_data hblocks hget (by rw [Option.mem_def.mp hd]; simp)]
    exact hreserved.buffer

theorem Marks.load {data : List UInt8} (h : Marks s) (hblocks : s.file.m_blocks = some blocks)
    (hb : blocks[id]? = some b) (hload : s.file.loadBlock b = .ok data) :
    Marks ⟨s.file.setBlock id { b with data := some data }, s.buffers⟩ := by
  have hlt := (List.getElem?_eq_some_iff.mp hb).1
  have hset : (s.file.setBlock id { b with data := some data }).m_blocks =
      some (blocks.set id { b with data := some data }) := by simp [setBlock, hblocks]
  constructor
  case blocks =>
    rw [hset, Option.map_some, List.length_set]
    exact (congrArg (Option.map List.length) hblocks).symm.trans h.blocks
  case buffers => exact h.buffers
  case empty => exact h.empty
  case current =>
    intro i hi
    obtain ⟨c, hc, hreserved⟩ := h.current i hi
    obtain ⟨-, blocks', hblocks', hget⟩ := get_of_currentBlock hc
    cases hblocks.symm.trans hblocks'
    by_cases hij : id = i
    · -- the current block has its bytes in memory
      subst hij
      obtain rfl : b = c := Option.some.inj (hb.symm.trans hget)
      obtain ⟨d, hd, hlength⟩ := hreserved.data
      obtain rfl : d = data := by
        simpa [loadBlock, Option.mem_def.mp hd] using hload
      exact ⟨_, currentBlock_of_get hset hi (List.getElem?_set_self hlt), ⟨_, rfl, hlength⟩,
        hreserved.buffer, hreserved.room, hreserved.volumn_lt⟩
    · refine ⟨c, currentBlock_of_get hset hi ?_, hreserved⟩
      rw [List.getElem?_set_ne hij]
      exact hget

theorem length_leftBlocks {off : Nat} (hb : blocks[id]? = some b) :
    (leftBlocks blocks id off b').length = if off = 0 then id else id + 1 := by
  have hlt := (List.getElem?_eq_some_iff.mp hb).1
  rw [leftBlocks, List.length_take, List.length_set]
  split <;> omega

theorem Marks.cut_all {off : Nat} (h : Marks s) (hblocks : s.file.m_blocks = some blocks)
    (hb : blocks[id]? = some b) (hcut : s.file.CutAt f' id off blocks b') (hid : id = 0)
    (hoff : off = 0) :
    Marks ⟨f', s.buffers.take f'.m_blockCount⟩ := by
  have hlength : blocks.length = s.file.m_blockCount := by
    simpa [hblocks] using h.blocks
  have hleft : (leftBlocks blocks id off b').length = if off = 0 then id else id + 1 :=
    length_leftBlocks hb
  constructor
  case blocks =>
    rcases hcut.blocks with ⟨hset, hcount⟩ | ⟨hset, hcount⟩
    · rw [hset, hcount, Option.map_some, List.length_set, hlength]
    · rw [hset, hcount, Option.map_some, List.length_modify, hleft]
  case buffers =>
    rw [List.length_take, h.buffers, Nat.min_eq_left]
    rcases hcut.blocks with ⟨-, hcount⟩ | ⟨-, hcount⟩
    · exact hcount.le
    · rw [hcount, if_pos hoff, hid]
      exact Nat.zero_le _
  case empty =>
    intro _
    rw [hcut.offset hoff hid]
    exact Nat.zero_le _
  case current =>
    intro i hi
    rw [hcut.current, if_pos hoff, if_pos hid] at hi
    cases hi

/-- So does a rollback inside the current block. -/
theorem Marks.cut_current {off : Nat} {data : List UInt8} (h : Marks s)
    (hblocks : s.file.m_blocks = some blocks) (hb : blocks[id]? = some b)
    (hload : s.file.loadBlock b = .ok data) (hlt : off < data.length)
    (hcut : s.file.CutAt f' id off blocks (cutOff b data off)) (hid : s.file.m_currentBlock = some id)
    (hoff : off ≠ 0) :
    Marks ⟨f', s.buffers.take f'.m_blockCount⟩ := by
  have hlength : blocks.length = s.file.m_blockCount := by
    simpa [hblocks] using h.blocks
  have hidlt := (List.getElem?_eq_some_iff.mp hb).1
  obtain ⟨c, hc, hreserved⟩ := h.current id hid
  obtain ⟨-, blocks', hblocks', hget⟩ := get_of_currentBlock hc
  cases hblocks.symm.trans hblocks'
  obtain rfl : b = c := Option.some.inj (hb.symm.trans hget)
  obtain ⟨d, hd, hdlength⟩ := hreserved.data
  obtain rfl : d = data := by simpa [loadBlock, Option.mem_def.mp hd] using hload
  have hcurrent : f'.m_currentBlock = some id := by rw [hcut.current, if_neg hoff]
  have hcount : id < f'.m_blockCount ∧ f'.m_blockCount ≤ s.file.m_blockCount := by
    rcases hcut.blocks with ⟨-, hcount⟩ | ⟨-, hcount⟩
    · omega
    · rw [hcount, if_neg hoff]
      omega
  -- the block at the end of the cut file, with its next one or without
  obtain ⟨b₁, hget₁, hsame⟩ : ∃ b₁, f'.currentBlock = some (id, b₁) ∧ b₁.data = some (d.take off) ∧
      b₁.size = off ∧ b₁.volumn = b.volumn := by
    rcases hcut.blocks with ⟨hset, -⟩ | ⟨hset, -⟩
    · exact ⟨_, currentBlock_of_get hset hcurrent (List.getElem?_set_self hidlt), rfl, rfl, rfl⟩
    · refine ⟨{ cutOff b d off with next := none }, currentBlock_of_get hset hcurrent ?_, rfl, rfl,
        rfl⟩
      rw [if_neg hoff, Nat.add_sub_cancel, List.getElem?_modify_eq, leftBlocks, if_neg hoff,
        List.getElem?_take_of_lt (Nat.lt_succ_self id), List.getElem?_set_self hidlt]
      rfl
  obtain ⟨hdata, hsize, hvolumn⟩ := hsame
  constructor
  case blocks =>
    rcases hcut.blocks with ⟨hset, hcount⟩ | ⟨hset, hcount⟩
    · rw [hset, hcount, Option.map_some, List.length_set, hlength]
    · rw [hset, hcount, Option.map_some, List.length_modify, length_leftBlocks hb]
  case buffers =>
    rw [List.length_take, h.buffers, Nat.min_eq_left hcount.2]
  case empty =>
    intro hnone
    rw [hcurrent] at hnone
    cases hnone
  case current =>
    intro i hi
    obtain rfl : id = i := Option.some.inj (hcurrent.symm.trans hi)
    have hroom := hreserved.room
    refine ⟨b₁, hget₁, ⟨_, hdata, ?_⟩, ?_, ?_, hvolumn ▸ hreserved.volumn_lt⟩
    · rw [List.length_take, hsize, Nat.min_eq_left hlt.le]
    · rw [List.getElem?_take_of_lt hcount.1, hvolumn]
      exact hreserved.buffer
    · rw [hsize, hvolumn]
      omega

theorem Marks.rollback {code : Option ErrorCode} (h : Marks s)
    (hreserves : Reserves cfg s.file (.rollback logIndex))
    (hrollback : s.file.rollback logIndex = some (code, f')) :
    Marks ⟨f', (LogFile.loadBuffers s.file logIndex s.buffers).take f'.m_blockCount⟩ := by
  have hloaded := h.loadBuffers logIndex
  have htake : (LogFile.loadBuffers s.file logIndex s.buffers).take s.file.m_blockCount =
      LogFile.loadBuffers s.file logIndex s.buffers := List.take_of_length_le hloaded.buffers.le
  rcases rollback_cases hrollback with rfl | ⟨id, blocks, b, data, -, hblocks, hb, hload, rfl | hcut⟩
  · rw [htake]
    exact hloaded
  · have hset := hloaded.load hblocks hb hload
    rwa [← htake] at hset
  · obtain ⟨off, hplace, hlt, hcut⟩ := hcut
    rcases hreserves id off hplace with ⟨hid, hoff⟩ | ⟨hid, hoff⟩
    · exact hloaded.cut_all hblocks hb hcut hid hoff
    · exact hloaded.cut_current hblocks hb hload hlt hcut hid hoff

theorem Marks.run (h : Marks s) (hcfg : cfg.m_defaultBlockSize < 2 ^ 32)
    (hreserves : Reserves cfg s.file c) (hrun : c.run cfg s = some s') : Marks s' := by
  cases c with
  | append e =>
    obtain ⟨r, happend, hr⟩ := Option.bind_eq_some_iff.mp hrun
    cases r with
    | error => cases hr; exact h
    | ok f' => cases hr; exact h.append hcfg hreserves happend
  | rollback logIndex =>
    obtain ⟨⟨code, f'⟩, hrollback, hr⟩ := Option.bind_eq_some_iff.mp hrun
    cases hr
    exact h.rollback hreserves hrollback

/-! ## Runs -/

variable {fileId : Nat} {p q : LogIndexInfo}

theorem CallRun.marks (hcfg : cfg.m_defaultBlockSize < 2 ^ 32)
    (h : CallRun cfg (Reserves cfg) fileId p q s) : Marks s := by
  induction h with
  | create => exact create_marks _ _ _
  | call _ _ hreserves hrun ih => exact ih.run hcfg hreserves hrun

theorem Marks.current_of_full (h : Marks s) (hadmitted : (Call.append e).Admitted cfg)
    (hfull : s.file.append cfg e = some (.error .full)) : s.file.m_currentBlock ≠ none := by
  intro hnone
  have hempty := h.empty hnone
  have hadmitted : HEAD_SIZE + e.size < cfg.m_defaultLogFileSize := hadmitted
  have hsize : ¬ (s.file.m_offset + e.size) % 2 ^ 32 ≥ cfg.m_defaultLogFileSize := by
    have := Nat.mod_le (s.file.m_offset + e.size) (2 ^ 32)
    omega
  rw [LogFile.append] at hfull
  split at hfull
  · split at hfull <;> cases hfull
  · -- there is room for the entry, and a new block is not refused
    simp only [_append, if_pos hnone, storeInNewBlock, appendToNewBlock,
      dsReturnIfFailed_ok] at hfull
    cases hadd : (s.file.writeIndex _).addBlock cfg
        (Block.new cfg.m_defaultBlockSize s.file.m_offset e) with
    | none => rw [hadd] at hfull; cases hfull
    | some g => rw [hadd] at hfull; cases hfull

/-- In every run whose entries leave room for the mark in the blocks that they open, and whose
    rollbacks cut nothing else than the current block or the whole file, a file that is full has a
    current block with room for the mark. -/
theorem markRoom_of_full (hcfg : cfg.m_defaultBlockSize < 2 ^ 32)
    (h : CallRun cfg (Reserves cfg) fileId p q s) (hadmitted : (Call.append e).Admitted cfg)
    (hfull : s.file.append cfg e = some (.error .full)) :
    s.MarkRoom ∧ ∃ f', s.file.markEnd = some f' := by
  have hmarks := h.marks hcfg
  obtain ⟨id, hid⟩ := Option.ne_none_iff_exists'.mp (hmarks.current_of_full hadmitted hfull)
  obtain ⟨b, hb, hreserved⟩ := hmarks.current id hid
  obtain ⟨d, hd, -⟩ := hreserved.data
  have hdata : b.data ≠ none := by
    rw [Option.mem_def.mp hd]
    simp
  refine ⟨⟨id, b, hb, hdata, _, hreserved.buffer, hreserved.room⟩, ?_⟩
  simp [markEnd, hb, Option.mem_def.mp hd, hreserved.room]

/-- An entry of `n` bytes behind its head. -/
def longEntry (i n : Nat) : LogEntryRpcBase :=
  { ClusterLog.entry i 0 with body := List.replicate n 0 }

/-- An entry of just a block's size opens a block, and the file is full for the next one. -/
theorem markRoom_missing : ∃ s, CallRun ⟨100, 250⟩ (fun _ _ => True) 1 ⟨1, 0⟩ ⟨1, 1⟩ s ∧
    (Call.append (longEntry 1 100)).Admitted ⟨100, 250⟩ ∧
    s.file.append ⟨100, 250⟩ (longEntry 1 100) = some (.error .full) ∧ ¬ s.MarkRoom ∧
    s.file.markEnd = none := by
  obtain ⟨s, hs, hblock, hbuffers, hfull⟩ : ∃ s,
      (Call.append (longEntry 0 54)).run ⟨100, 250⟩ ⟨create 1 ⟨1, 0⟩ ⟨1, 1⟩, []⟩ = some s ∧
        s.file.currentBlock = some (0, Block.new 100 HEAD_SIZE (longEntry 0 54)) ∧
        s.buffers = [100] ∧ s.file.append ⟨100, 250⟩ (longEntry 1 100) = some (.error .full) :=
    ⟨_, rfl, rfl, rfl, rfl⟩
  refine ⟨s, .call .create (by decide) trivial hs, by decide, hfull, ?_, ?_⟩
  · rintro ⟨id, b, hb, -, c, hc, hroom⟩
    cases hblock.symm.trans hb
    rw [hbuffers] at hc
    cases hc
    exact absurd hroom (by decide)
  · rw [markEnd, hblock]
    rfl

/-- An entry that leaves room for the mark, and one for which the file is full then. -/
theorem markRoom_of_full_one : ∃ s, CallRun ⟨100, 250⟩ (Reserves ⟨100, 250⟩) 1 ⟨1, 0⟩ ⟨1, 1⟩ s ∧
    s.file.append ⟨100, 250⟩ (longEntry 1 120) = some (.error .full) ∧
    (s.MarkRoom ∧ ∃ f', s.file.markEnd = some f') := by
  obtain ⟨s, hs, hfull⟩ : ∃ s,
      (Call.append (longEntry 0 48)).run ⟨100, 250⟩ ⟨create 1 ⟨1, 0⟩ ⟨1, 1⟩, []⟩ = some s ∧
        s.file.append ⟨100, 250⟩ (longEntry 1 120) = some (.error .full) := ⟨_, rfl, rfl⟩
  have hrun : CallRun ⟨100, 250⟩ (Reserves ⟨100, 250⟩) 1 ⟨1, 0⟩ ⟨1, 1⟩ s :=
    .call .create (c := .append (longEntry 0 48)) (by decide) (fun _ => by decide) hs
  exact ⟨s, hrun, hfull, markRoom_of_full (by decide) hrun (by decide) hfull⟩

end DBStream.Native.CLUSTER.LogFile
