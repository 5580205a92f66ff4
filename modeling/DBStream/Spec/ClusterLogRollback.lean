import DBStream.Spec.ClusterLogLayout

/-!
# Rolling back a log file

`rollback` of an open file leaves a buffer, changes nothing, or cuts the file at a place.  Its blocks
stay laid out as before, and `m_logIndex` stays what it is.
-/

namespace DBStream.Native.CLUSTER

namespace LogFile

variable {f f' : LogFile} {blocks : List Block} {b b' : Block} {logIndex : LogIndexInfo}
  {id pos : Nat} {data : List UInt8}

/-- Where `rollback` to an index cuts the file: a block and the place in it, if there is one. -/
def cutPlace (f : LogFile) (logIndex : LogIndexInfo) : Option (Option (Nat × Nat)) := do
  match ← f.findBlock logIndex with
  | none => return none
  | some id =>
    let blocks ← f.m_blocks
    let b ← blocks[id]?
    match f.loadBlock b with
    | .error _ => return none
    | .ok data => return (← Block.find data logIndex).map fun off => (id, off)

/-- What a rollback keeps of a file. -/
structure RolledBack (f f' : LogFile) : Prop where
  laid : ∃ blocks, f'.Laid blocks
  logIndex : f'.m_logIndex = f.m_logIndex
  frame : f.Frame f'

theorem Laid.loadBlock (h : f.Laid blocks) (hb : b ∈ blocks) :
    ∃ data, f.loadBlock b = .ok data ∧ data.length = b.size := by
  cases hd : b.data with
  | some d => exact ⟨d, by rw [LogFile.loadBlock, hd], h.data b hb d hd⟩
  | none =>
    have hdisk := h.disk b hb hd
    have hlength : (f.file.slice b.idx.offset b.size).length = b.size := List.length_slice_of_le hdisk
    exact ⟨_, by rw [LogFile.loadBlock, hd]; exact if_pos hlength, hlength⟩

theorem findFrom_lt {fuel off : Nat} (h : Block.findFrom data logIndex fuel pos = some (some off)) :
    off < data.length := by
  induction fuel generalizing pos with
  | zero => cases h
  | succ fuel ih =>
    rw [Block.findFrom] at h
    split at h
    · next hlt =>
      split at h
      · cases h
      · split at h
        · exact ih h
        · cases h
          exact hlt
    · cases h

theorem cut_laid {g : LogFile} {left : List Block}
    (hblocks : g.m_blocks = some (left.modify (left.length - 1) fun b => { b with next := none }))
    (hcount : g.m_blockCount = left.length)
    (hcurrent : g.m_currentBlock = if left.length > 0 then some (left.length - 1) else none)
    (hordered : left.Pairwise Before) (hlast : ∀ b ∈ left.getLast?, b.idx.offset + b.size = g.m_offset)
    (hoffset : g.m_offset < 2 ^ 31) (hdata : ∀ b ∈ left, ∀ d ∈ b.data, d.length = b.size)
    (hdisk : ∀ b ∈ left, b.data = none → b.idx.offset + b.size ≤ g.file.length) :
    ∃ blocks, g.Laid blocks := by
  rcases List.eq_nil_or_concat' left with rfl | ⟨init, b, rfl⟩
  · exact ⟨[], hblocks, hcount, hcurrent, .nil, hlast, hoffset, hdata, hdisk⟩
  · have hmodify : (init ++ [b]).modify ((init ++ [b]).length - 1) (fun b => { b with next := none }) =
        init ++ [{ b with next := none }] := by
      rw [List.length_append, List.length_singleton, Nat.add_sub_cancel, modify_last]
    rw [hmodify] at hblocks
    refine ⟨_, hblocks, ?_, ?_, ordered_last hordered rfl, ?_, hoffset, ?_, ?_⟩
    · simpa using hcount
    · simpa using hcurrent
    · have := hlast b (by simp)
      simpa using this
    · exact forall_mem_snoc (fun c hc => hdata c (List.mem_append_left _ hc)) (hdata b (by simp))
    · exact forall_mem_snoc (fun c hc => hdisk c (List.mem_append_left _ hc)) (hdisk b (by simp))

theorem set_ordered (hb : blocks[id]? = some b) (hidx : b'.idx = b.idx) (hsize : b'.size = b.size)
    (hordered : blocks.Pairwise Before) : (blocks.set id b').Pairwise Before := by
  obtain ⟨hid, rfl⟩ := List.getElem?_eq_some_iff.mp hb
  let key : Block → Nat × Nat := fun b => (b.idx.offset, b.size)
  have hmap : (blocks.set id b').map key = blocks.map key := by
    apply List.ext_getElem (by simp)
    intro i hi _
    by_cases h : id = i
    · subst h
      simp [key, hidx, hsize]
    · simp [h]
  have hkey : ∀ l : List Block, l.Pairwise Before ↔
      (l.map key).Pairwise fun p q => p.1 + p.2 ≤ q.1 := by
    intro l
    rw [List.pairwise_map]
    rfl
  rw [hkey, hmap, ← hkey]
  exact hordered

theorem Laid.setData (h : f.Laid blocks) (hb : blocks[id]? = some b)
    (hlength : data.length = b.size) :
    (f.setBlock id { b with data := some data }).Laid (blocks.set id { b with data := some data }) := by
  obtain ⟨hid, hget⟩ := List.getElem?_eq_some_iff.mp hb
  constructor
  case blocks_eq => simp [setBlock, h.blocks_eq]
  case count => simpa [setBlock] using h.count
  case current => simpa [setBlock] using h.current
  case ordered => exact set_ordered hb rfl rfl h.ordered
  case last =>
    intro c hc
    rw [List.getLast?_eq_getElem?, List.length_set] at hc
    by_cases heq : id = blocks.length - 1
    · subst heq
      rw [List.getElem?_set_self hid] at hc
      cases hc
      exact h.last b (by rw [List.getLast?_eq_getElem?]; exact hb)
    · rw [List.getElem?_set_ne heq] at hc
      exact h.last c (by rw [List.getLast?_eq_getElem?]; exact hc)
  case offset_lt => exact h.offset_lt
  case data =>
    intro c hc d hd
    rcases List.mem_or_eq_of_mem_set hc with hc | rfl
    · exact h.data c hc d hd
    · cases hd
      exact hlength
  case disk =>
    intro c hc hnone
    rcases List.mem_or_eq_of_mem_set hc with hc | rfl
    · exact h.disk c hc hnone
    · cases hnone

theorem ends_le {c : Block} (hordered : blocks.Pairwise Before) (hc : c ∈ blocks)
    (hb : b ∈ blocks.getLast?) : c.idx.offset + c.size ≤ b.idx.offset + b.size := by
  rcases List.eq_nil_or_concat' blocks with rfl | ⟨init, d, rfl⟩
  · cases hc
  · simp only [List.getLast?_append, List.getLast?_singleton, Option.some_or, Option.mem_def,
      Option.some.injEq] at hb
    subst hb
    rcases List.mem_append.mp hc with hc | hc
    · exact ((List.pairwise_append.mp hordered).2.2 c hc d (by simp)).trans (Nat.le_add_right _ _)
    · rw [List.mem_singleton.mp hc]

theorem Laid.end_le (h : f.Laid blocks) (hb : b ∈ blocks) : b.idx.offset + b.size ≤ f.m_offset := by
  have hne : blocks ≠ [] := List.ne_nil_of_mem hb
  have hlast := List.getLast?_eq_some_getLast hne
  rw [← h.last _ hlast]
  exact ends_le h.ordered hb hlast

theorem split_at (hb : blocks[id]? = some b) :
    ∃ before after, blocks = before ++ b :: after ∧ before.length = id := by
  obtain ⟨hid, rfl⟩ := List.getElem?_eq_some_iff.mp hb
  refine ⟨blocks.take id, blocks.drop (id + 1), ?_, List.length_take_of_le hid.le⟩
  rw [← List.drop_eq_getElem_cons hid, List.take_append_drop]

/-- Blocks of a file that a cut leaves. -/
structure CutTo (f : LogFile) (left : List Block) : Prop where
  ordered : left.Pairwise Before
  ends : ∀ b ∈ left, b.idx.offset + b.size ≤ f.m_offset
  data : ∀ b ∈ left, ∀ d ∈ b.data, d.length = b.size
  disk : ∀ b ∈ left, b.data = none → b.idx.offset + b.size ≤ f.file.length

/-- The block that a cut ends at a place. -/
def cutOff (b : Block) (data : List UInt8) (off : Nat) : Block :=
  { b with data := some (data.take off), size := off }

def leftBlocks (blocks : List Block) (id off : Nat) (b : Block) : List Block :=
  (blocks.set id b).take (if off = 0 then id else id + 1)

private theorem leftBlocks_append (before after : List Block) {off : Nat} :
    leftBlocks (before ++ b :: after) before.length off b' =
      before ++ if off = 0 then [] else [b'] := by
  rw [leftBlocks, List.set_append_right _ _ le_rfl, Nat.sub_self, List.set_cons_zero]
  split
  · rw [List.take_left, List.append_nil]
  · rw [List.take_append]
    simp

theorem Laid.cutTo {before after : List Block} {off : Nat}
    (h : f.Laid (before ++ b :: after)) (hlength : data.length = b.size) (hoff : off < data.length) :
    f.CutTo (before ++ if off = 0 then [] else [cutOff b data off]) := by
  obtain ⟨hbefore, -, hbetween⟩ := List.pairwise_append.mp h.ordered
  have hold : ∀ c ∈ before, c ∈ before ++ b :: after := fun c hc => List.mem_append_left _ hc
  have hb : b ∈ before ++ b :: after := by simp
  split
  · rw [List.append_nil]
    exact ⟨hbefore, fun c hc => h.end_le (hold c hc), fun c hc => h.data c (hold c hc),
      fun c hc => h.disk c (hold c hc)⟩
  · constructor
    case ordered =>
      refine List.pairwise_append.mpr ⟨hbefore, List.pairwise_singleton _ _, ?_⟩
      intro c hc d hd
      rw [List.mem_singleton.mp hd]
      exact hbetween c hc b (by simp)
    case ends =>
      apply forall_mem_snoc
      · exact fun c hc => h.end_le (hold c hc)
      · have := h.end_le hb
        simp only [cutOff]
        omega
    case data =>
      apply forall_mem_snoc
      · exact fun c hc => h.data c (hold c hc)
      · rintro d ⟨⟩
        rw [List.length_take]
        exact Nat.min_eq_left hoff.le
    case disk =>
      apply forall_mem_snoc
      · exact fun c hc => h.disk c (hold c hc)
      · exact fun hnone => nomatch hnone

/-- A cut file ends behind the blocks that are left. -/
structure CutFile (f g : LogFile) (left : List Block) : Prop where
  same : g = { f with
    m_offset := g.m_offset, m_blocks := g.m_blocks, m_blockCount := g.m_blockCount,
    m_currentBlock := g.m_currentBlock, m_fd := g.m_fd, m_indexFd := g.m_indexFd,
    file := g.file, indexFile := g.indexFile }
  blocks : g.m_blocks = some (left.modify (left.length - 1) fun b => { b with next := none })
  count : g.m_blockCount = left.length
  current : g.m_currentBlock = if left.length > 0 then some (left.length - 1) else none
  offset : g.m_offset = (left.getLast?.elim 0 fun b => b.idx.offset + b.size)
  fd : g.m_fd = f.m_fd.map fun _ => f.file.length
  file : g.file = if f.m_fd.isSome then f.file.take g.m_offset else f.file

theorem CutTo.laid {g : LogFile} {left : List Block} (h : f.CutTo left) (hg : f.CutFile g left)
    (hoffset : f.m_offset < 2 ^ 31) : ∃ blocks, g.Laid blocks := by
  have hends : ∀ b ∈ left, b.idx.offset + b.size ≤ g.m_offset := by
    intro b hb
    have hlast := List.getLast?_eq_some_getLast (List.ne_nil_of_mem hb)
    rw [hg.offset, hlast]
    exact ends_le h.ordered hb hlast
  refine cut_laid hg.blocks hg.count hg.current h.ordered ?_ ?_ h.data ?_
  · intro b hb
    rw [hg.offset, Option.mem_def.mp hb]
    rfl
  · rw [hg.offset]
    cases hlast : left.getLast? with
    | none => exact Nat.two_pow_pos 31
    | some b => exact (h.ends b (List.mem_of_getLast? hlast)).trans_lt hoffset
  · intro b hb hnone
    have hdisk := h.disk b hb hnone
    rw [hg.file]
    split
    · rw [List.length_take]
      exact le_min (hends b hb) hdisk
    · exact hdisk

theorem truncateIndex_eq (size : Nat) : ∃ indexFd indexFile,
    f.truncateIndex size = { f with m_indexFd := indexFd, indexFile := indexFile } := by
  rw [truncateIndex]
  split
  · exact ⟨_, _, rfl⟩
  · exact ⟨f.m_indexFd, f.indexFile, rfl⟩

theorem truncateData_ok (h : f.m_offset < 2 ^ 31) :
    f.truncateData = .ok { f with
      m_fd := f.m_fd.map fun _ => f.file.length
      file := if f.m_fd.isSome then f.file.take f.m_offset else f.file } := by
  have hnot : ¬ f.m_offset ≥ 2 ^ 31 := Nat.not_le.mpr h
  cases hfd : f.m_fd with
  | none =>
    have hand : ¬ (f.m_offset ≥ 2 ^ 31 ∧ f.m_offset ≠ 2 ^ 32 - 1) := fun hand => hnot hand.1
    simp only [truncateData, hfd, if_neg hand, Option.map_none, Option.isSome_none,
      Bool.false_eq_true, if_false, Except.ok.injEq]
    cases f
    simp_all
  | some pos =>
    by_cases hlt : f.file.length > f.m_offset
    · simp only [truncateData, hfd, if_neg hnot, if_pos hlt, Option.map_some, Option.isSome_some,
        if_true]
    · simp only [truncateData, hfd, if_neg hnot, if_neg hlt, Option.map_some, Option.isSome_some,
        if_true, List.take_of_length_le (Nat.not_lt.mp hlt)]

private theorem offset_cutBlock (f : LogFile) (blocks : List Block) (id off n : Nat) (b : Block) :
    (f.cutBlock blocks id off n b).m_offset =
      ((if n > 0 then some (n - 1) else none).bind
        (fun i => (blocks.set id { b with size := off })[i]?)).elim 0
          fun b => (b.idx.offset + b.size) % 2 ^ 32 := by
  unfold cutBlock
  dsimp only
  split
  · next hnone =>
    rw [hnone]
    rfl
  · next b hsome =>
    rw [hsome]
    rfl

/-- Both files of a log file are cut at the same entry. -/
theorem Laid.cut (h : f.Laid blocks) (hb : blocks[id]? = some b) (hlength : data.length = b.size)
    {off : Nat} (hoff : off < data.length) :
    let n := if off = 0 then id else id + 1
    let b' : Block := { b with data := some (data.take off) }
    ∃ g, ((f.cutBlock blocks id off n b').truncateIndex (indexSize * n)).truncateData = .ok g ∧
      f.CutFile (g.dropBlocks n) (leftBlocks blocks id off (cutOff b data off)) ∧
      f.CutTo (leftBlocks blocks id off (cutOff b data off)) := by
  intro n b'
  obtain ⟨before, after, rfl, rfl⟩ := split_at hb
  have hcutTo := h.cutTo hlength hoff
  rw [← leftBlocks_append before after] at hcutTo
  set left := leftBlocks (before ++ b :: after) before.length off (cutOff b data off) with hleft
  have hn : left.length = n := by
    rw [hleft, leftBlocks, List.length_take, List.length_set]
    simp only [n, List.length_append, List.length_cons]
    split <;> omega
  -- the block the code goes on from is the last of those that are left
  have hlast : (if n > 0 then some (n - 1) else none).bind
      (fun i => ((before ++ b :: after).set before.length (cutOff b data off))[i]?) =
      left.getLast? := by
    rw [List.getLast?_eq_getElem?, hn]
    split
    · next hpos =>
      rw [Option.bind_some, hleft, leftBlocks, List.getElem?_take_of_lt]
      exact Nat.sub_lt hpos Nat.one_pos
    · next hpos =>
      have hzero : left = [] := List.length_eq_zero_iff.mp (hn.trans (Nat.eq_zero_of_not_pos hpos))
      simp [hzero]
  have hoffset : (f.cutBlock (before ++ b :: after) before.length off n b').m_offset =
      (left.getLast?.elim 0 fun b => b.idx.offset + b.size) := by
    have hcut : (f.cutBlock (before ++ b :: after) before.length off n b').m_offset =
        left.getLast?.elim 0 fun b => (b.idx.offset + b.size) % 2 ^ 32 := by
      rw [offset_cutBlock, ← hlast]
      rfl
    rw [hcut]
    cases hc : left.getLast? with
    | none => rfl
    | some c =>
      have := hcutTo.ends c (List.mem_of_getLast? hc)
      have := h.offset_lt
      exact Nat.mod_eq_of_lt (by omega)
  -- so the offset is one the file had before, and `ftruncate` takes it
  have hlt : (f.cutBlock (before ++ b :: after) before.length off n b').m_offset < 2 ^ 31 := by
    rw [hoffset]
    cases hc : left.getLast? with
    | none => exact Nat.two_pow_pos 31
    | some c => exact (hcutTo.ends c (List.mem_of_getLast? hc)).trans_lt h.offset_lt
  obtain ⟨indexFd, indexFile, hindex⟩ :=
    truncateIndex_eq (f := f.cutBlock (before ++ b :: after) before.length off n b')
      (indexSize * n)
  rw [hindex]
  refine ⟨_, truncateData_ok hlt, ?_, hcutTo⟩
  constructor
  case same => rfl
  case blocks =>
    rw [hn]
    rfl
  case count => exact hn.symm
  case current =>
    rw [hn]
    rfl
  case offset => exact hoffset
  case fd => rfl
  case file => rfl

theorem Laid.rollback_cut (h : f.Laid blocks) (hfind : f.findBlock logIndex = some (some id))
    (hb : blocks[id]? = some b) (hload : f.loadBlock b = .ok data) (hlength : data.length = b.size)
    {off : Nat} (hplace : Block.find data logIndex = some (some off)) :
    ∃ f', f.rollback logIndex = some (none, f') ∧
      f.CutFile f' (leftBlocks blocks id off (cutOff b data off)) ∧
      f.CutTo (leftBlocks blocks id off (cutOff b data off)) := by
  obtain ⟨g, htruncate, hcut, hleft⟩ := h.cut hb hlength (findFrom_lt hplace)
  refine ⟨_, ?_, hcut, hleft⟩
  simp only [LogFile.rollback, hfind, h.blocks_eq, hb, hload, hplace, Option.bind_eq_bind,
    Option.bind_some, htruncate, Option.pure_def]

/-- `rollback` is undefined exactly where its place to cut is; else it returns. -/
theorem Laid.rollback (h : f.Laid blocks) (logIndex : LogIndexInfo) :
    (f.cutPlace logIndex = none ∧ f.rollback logIndex = none) ∨
      f.cutPlace logIndex ≠ none ∧ ∃ f', f.rollback logIndex = some (none, f') ∧ f.RolledBack f' := by
  cases hfind : f.findBlock logIndex with
  | none => exact .inl ⟨by simp [cutPlace, hfind], by simp [LogFile.rollback, hfind]⟩
  | some found =>
    cases found with
    | none =>
      refine .inr ⟨by simp [cutPlace, hfind], f, by simp [LogFile.rollback, hfind], ⟨_, h⟩, rfl, ?_⟩
      exact ⟨rfl, rfl, rfl⟩
    | some id =>
      cases hb : blocks[id]? with
      | none =>
        simp [cutPlace, LogFile.rollback, hfind, h.blocks_eq, hb]
      | some b =>
        obtain ⟨data, hload, hlength⟩ := h.loadBlock (List.mem_of_getElem? hb)
        have hcutPlace : f.cutPlace logIndex =
            (Block.find data logIndex).map (·.map fun off => (id, off)) := by
          simp only [cutPlace, hfind, h.blocks_eq, hb, hload, Option.bind_eq_bind, Option.bind_some]
          cases Block.find data logIndex <;> rfl
        cases hplace : Block.find data logIndex with
        | none =>
          left
          refine ⟨by rw [hcutPlace, hplace, Option.map_none], ?_⟩
          simp [LogFile.rollback, hfind, h.blocks_eq, hb, hload, hplace]
        | some off =>
          refine .inr ⟨by simp [hcutPlace, hplace], ?_⟩
          cases off with
          | none =>
            refine ⟨f.setBlock id { b with data := some data }, ?_, ⟨_, h.setData hb hlength⟩, rfl,
              ⟨rfl, rfl, rfl⟩⟩
            simp [LogFile.rollback, hfind, h.blocks_eq, hb, hload, hplace]
          | some off =>
            obtain ⟨f', hrollback, hcut, hleft⟩ := h.rollback_cut hfind hb hload hlength hplace
            refine ⟨f', hrollback, hleft.laid hcut h.offset_lt, ?_, ?_⟩
            · rw [hcut.same]
            · rw [hcut.same]
              exact ⟨rfl, rfl, rfl⟩

/-! ## Rolling back a file whose last index is its first one -/

theorem Current.find_head (h : f.Current b) (hd : data ∈ b.data) :
    Block.find data b.idx.logIndex = some (some 0) := by
  obtain ⟨d, hd', hlength, hhead⟩ := h.data
  have heq : d = data := Option.some.inj (hd'.symm.trans hd)
  subst heq
  have hpos : 0 < d.length := by omega
  have hle : ¬ d.length < 0 + 22 := by omega
  rw [Block.find, Block.findFrom, if_pos hpos, if_neg hle, hhead, if_neg (lt_irrefl _)]

theorem Kept.findBlock_single (h : f.Kept [b]) (hbegin : f.m_beginLogIndex = f.m_logIndex)
    (hle : f.m_beginLogIndex ≤ logIndex) :
    f.findBlock logIndex = some (if b.idx.logIndex = logIndex then some 0 else none) := by
  obtain ⟨hge, hle'⟩ := h.bounds b (by simp)
  have hidx : b.idx.logIndex = f.m_logIndex := le_antisymm hle' (hbegin ▸ hge)
  have hcount : f.m_blockCount = 1 := h.count
  have hnot : ¬ logIndex < b.idx.logIndex := by
    rw [hidx, ← hbegin]
    exact not_lt.mpr hle
  by_cases heq : b.idx.logIndex = logIndex
  · simp [LogFile.findBlock, hcount, h.blocks_eq, searchBlock, heq]
  · have hlt : b.idx.logIndex < logIndex := lt_of_le_of_ne (not_lt.mp hnot) heq
    have hend : (⟨f.m_logIndex.term, (f.m_logIndex.logIndex + 1) % 2 ^ 64⟩ : LogIndexInfo) ≤
        logIndex := by
      rw [hidx] at hlt
      simp only [LogIndexInfo.lt_def, LogIndexInfo.le_def] at hlt ⊢
      omega
    have hblock : (if b.idx.logIndex ≤ logIndex ∧
        (⟨f.m_logIndex.term, (f.m_logIndex.logIndex + 1) % 2 ^ 64⟩ : LogIndexInfo) > logIndex then
        some 0 else none) = (none : Option Nat) := if_neg fun hand => not_lt.mpr hend hand.2
    simpa [LogFile.findBlock, hcount, h.blocks_eq, searchBlock, hlt, blockEnd, heq] using hblock

/-- A rollback to an index up to the first one finds nothing, or empties a file of one entry. -/
theorem Kept.rollback_first (h : f.Kept blocks)
    (hbegin : blocks ≠ [] → f.m_beginLogIndex = f.m_logIndex) (hle : f.m_beginLogIndex ≤ logIndex) :
    (f.cutPlace logIndex = some none ∧ f.rollback logIndex = some (none, f)) ∨
      f.m_beginLogIndex = f.m_logIndex ∧ f.m_logIndex = logIndex ∧
        f.cutPlace logIndex = some (some (0, 0)) ∧
        ∃ f', f.rollback logIndex = some (none, f') ∧ f.CutFile f' [] := by
  rcases List.eq_nil_or_concat' blocks with rfl | ⟨init, b, rfl⟩
  · have hfind : f.findBlock logIndex = some none := if_pos h.count
    exact .inl ⟨by simp [cutPlace, hfind], by simp [LogFile.rollback, hfind]⟩
  · have hbegin' := hbegin (by simp)
    have hnil : init = [] := by
      -- there is no room for two indexes
      by_contra hne
      obtain ⟨c, hc⟩ := List.exists_mem_of_ne_nil _ hne
      have hlt := (List.pairwise_append.mp h.sorted).2.2 c hc b (by simp)
      have hge := (h.bounds c (List.mem_append_left _ hc)).1
      have hle := (h.bounds b (by simp)).2
      rw [hbegin'] at hge
      exact absurd (hge.trans_lt hlt) (not_lt.mpr hle)
    subst hnil
    have hfind := Kept.findBlock_single h hbegin' hle
    obtain ⟨hge, hle'⟩ := h.bounds b (by simp)
    have hidx : b.idx.logIndex = f.m_logIndex := le_antisymm hle' (hbegin' ▸ hge)
    have hsnoc : f.Kept ([] ++ [b]) := h
    obtain ⟨pos, -, -, hcurrent⟩ := hsnoc.current_block
    obtain ⟨d, hd, -⟩ := hcurrent.data
    have hload : f.loadBlock b = .ok d := by rw [LogFile.loadBlock, Option.mem_def.mp hd]
    by_cases heq : b.idx.logIndex = logIndex
    · right
      rw [if_pos heq] at hfind
      have hplace := hcurrent.find_head hd
      rw [heq] at hplace
      obtain ⟨f', hrollback, hcut, -⟩ :=
        h.rollback_cut hfind rfl hload (h.data b (by simp) d hd) hplace
      refine ⟨hbegin', hidx.symm.trans heq, ?_, f', hrollback, hcut⟩
      have hblocks : f.m_blocks = some [b] := h.blocks_eq
      simp [cutPlace, hfind, hblocks, hload, hplace]
    · left
      rw [if_neg heq] at hfind
      exact ⟨by simp [cutPlace, hfind], by simp [LogFile.rollback, hfind]⟩

theorem Kept.cut_nil (h : f.Kept blocks) (hcut : f.CutFile f' []) : f'.Kept [] := by
  obtain ⟨pos, hpos, hle, -⟩ := h.fd
  have hfile : f'.file = [] := by
    rw [hcut.file, Option.mem_def.mp hpos, hcut.offset]
    rfl
  have hfd : f'.m_fd = some f.file.length := by
    rw [hcut.fd, Option.mem_def.mp hpos]
    rfl
  have hoffset : f'.m_offset = 0 := hcut.offset
  constructor
  case toLaid =>
    refine ⟨hcut.blocks, hcut.count, hcut.current, .nil, by simp, ?_, by simp, by simp⟩
    rw [hoffset]
    exact Nat.two_pow_pos 31
  case fd =>
    refine ⟨_, hfd, ?_, by simp, fun _ => ?_⟩
    · simp [hfile]
    · simp [hoffset]
  case sorted => exact .nil
  case bounds => simp

end LogFile

end DBStream.Native.CLUSTER
