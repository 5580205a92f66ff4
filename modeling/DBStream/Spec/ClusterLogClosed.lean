import DBStream.Spec.ClusterLogReading

/-!
# Reading a file that was closed

A finished file has its blocks on disk, and the index file lists them.  `load` makes the blocks again
from there if the last one, with the mark, is shorter than a block of the default size.  Otherwise it
goes into `recoveryIndexFromLastBlock`, which does not get past its end.
-/

namespace DBStream.Native.CLUSTER

theorem Index.ofBytes_bytes {i : Index} (hoffset : i.offset < 2 ^ 32) (hfits : i.logIndex.Fits) :
    ofBytes i.bytes = i := by
  have htake : i.bytes.take 4 = LE.bytes 4 i.offset := List.take_left' (LE.length_bytes _ _)
  have hdrop : i.bytes.drop 4 = i.logIndex.bytes := List.drop_left' (LE.length_bytes _ _)
  have hread := LogIndexInfo.ofBytes_bytes hfits []
  rw [List.append_nil] at hread
  rw [ofBytes, htake, hdrop, hread, LE.nat_bytes_of_lt hoffset]

namespace LogFile

variable {f g : LogFile} {cfg : LogConfig} {blocks init : List Block} {b c : Block} {i : Nat}
  {groups : List (List LogEntryRpcBase)} {last : List LogEntryRpcBase} {x : LogIndexInfo}

/-! ## The blocks of an index file -/

/-- What the index file has of a block. -/
def loadedBlock (b : Block) : Block := { b with data := none, volumn := 0, writedSize := 0 }

/-- The blocks of a file that is not open are those of its index file. -/
def blockList (f : LogFile) : List Block :=
  let d := f.indexFile.getD []
  f.m_blocks.getD (indexBlocks (d.length / indexSize) d)

private theorem index_at (hb : blocks[i]? = some b) (hoffset : b.idx.offset < 2 ^ 32)
    (hfits : b.idx.logIndex.Fits) :
    Index.ofBytes ((blocks.flatMap (·.idx.bytes)).slice (indexSize * i) indexSize) = b.idx := by
  obtain ⟨before, after, rfl, rfl⟩ := split_at hb
  have hslice : ((before ++ b :: after).flatMap (·.idx.bytes)).slice (indexSize * before.length)
      indexSize = b.idx.bytes := by
    rw [List.flatMap_append, List.flatMap_cons]
    exact List.slice_append_mid _ (length_indexes before) (Index.length_bytes _)
  rw [hslice, Index.ofBytes_bytes hoffset hfits]

theorem sub32_add {m n : Nat} (h : m + n < 2 ^ 32) : sub32 (m + n) m = n := by
  rw [sub32]
  omega

/-- The size of a block is known from the next one, and that of the last one is not. -/
theorem indexBlocks_eq (hfits : ∀ c ∈ init ++ [b], c.idx.logIndex.Fits)
    (hlt : ∀ c ∈ init ++ [b], c.idx.offset + c.size < 2 ^ 32) (hjoined : Joined (init ++ [b]))
    (hnext : ∀ i c, (init ++ [b])[i]? = some c →
      c.next = if i + 1 < (init ++ [b]).length then some (i + 1) else none) :
    indexBlocks (init.length + 1) ((init ++ [b]).flatMap (·.idx.bytes)) =
      init.map loadedBlock ++ [{ loadedBlock b with size := 0 }] := by
  have hlength : (init ++ [b]).length = init.length + 1 := by simp
  have hindex : ∀ j c, (init ++ [b])[j]? = some c → Index.ofBytes
      (((init ++ [b]).flatMap (·.idx.bytes)).slice (indexSize * j) indexSize) = c.idx := by
    intro j c hc
    have hmem := List.mem_of_getElem? hc
    exact index_at hc (Nat.lt_of_le_of_lt (Nat.le_add_right _ _) (hlt c hmem)) (hfits c hmem)
  apply List.ext_getElem?
  intro i
  simp only [indexBlocks, List.getElem?_map]
  rcases Nat.lt_trichotomy i init.length with hi | rfl | hi
  · have hc : (init ++ [b])[i]? = some init[i] := by
      rw [List.getElem?_append_left hi, List.getElem?_eq_getElem hi]
    have hi' : i + 1 < (init ++ [b]).length := by omega
    have hd := List.getElem?_eq_getElem hi'
    have hends := List.IsChain.getElem hjoined i hi'
    rw [List.getElem_append_left hi] at hends
    have hsize := hlt _ (List.mem_of_getElem? hc)
    have hsucc := hnext i _ hc
    rw [if_pos hi'] at hsucc
    rw [List.getElem?_range (by omega), Option.map_some, if_pos (by omega), hindex i _ hc,
      hindex (i + 1) _ hd, ← hends, sub32_add hsize, List.getElem?_append_left (by simpa using hi),
      List.getElem?_map, List.getElem?_eq_getElem hi, Option.map_some, loadedBlock, hsucc]
  · have hc : (init ++ [b])[init.length]? = some b := List.getElem?_concat_length
    have hsucc := hnext _ _ hc
    rw [if_neg (by simp)] at hsucc
    have hlast := List.getElem?_concat_length (l := init.map loadedBlock)
      (a := { loadedBlock b with size := 0 })
    rw [List.length_map] at hlast
    rw [List.getElem?_range (by omega), Option.map_some, if_neg (by omega), hindex _ _ hc, hlast,
      loadedBlock, hsucc]
  · rw [List.getElem?_eq_none (by simpa using Nat.succ_le_of_lt hi), Option.map_none,
      List.getElem?_eq_none (by simpa using Nat.succ_le_of_lt hi)]

/-! ## Finished files -/

/-- A file that was finished and closed, with the blocks it had and their entries. -/
structure Finished (f : LogFile) (cfg : LogConfig) (init : List Block) (b : Block)
    (groups : List (List LogEntryRpcBase)) : Prop where
  closed : f.m_blocks = none
  length : (init ++ [b]).length = groups.length
  text : ∀ i c g, (init ++ [b])[i]? = some c → groups[i]? = some g → c.data = none ∧
    c.size = (blockText groups.length endMark.bytes i g).length ∧
    f.loadBlock c = .ok (blockText groups.length endMark.bytes i g)
  next : ∀ i c, (init ++ [b])[i]? = some c →
    c.next = if i + 1 < (init ++ [b]).length then some (i + 1) else none
  within : ∀ c ∈ init ++ [b], c.idx.offset + c.size ≤ f.file.length
  last : b.idx.offset + b.size = f.file.length
  file_lt : f.file.length < 2 ^ 32
  fits : ∀ c ∈ init ++ [b], c.idx.logIndex.Fits
  joined : Joined (init ++ [b])
  sorted : (init ++ [b]).Pairwise fun b c => b.idx.logIndex < c.idx.logIndex
  begins : ∀ (i : Nat) (c : Block) (g : List LogEntryRpcBase), (init ++ [b])[i]? = some c →
    groups[i]? = some g → g.head?.map (·.logIndex) = some c.idx.logIndex
  count_le : init.length + 1 ≤ cfg.maxBlockCount
  index : f.indexFile = some ((init ++ [b]).flatMap (·.idx.bytes))

namespace Finished

theorem indexBlocks (h : f.Finished cfg init b groups) :
    indexBlocks (init.length + 1) ((init ++ [b]).flatMap (·.idx.bytes)) =
      init.map loadedBlock ++ [{ loadedBlock b with size := 0 }] :=
  indexBlocks_eq h.fits (fun c hc => (h.within c hc).trans_lt h.file_lt) h.joined h.next

theorem indexCount (init : List Block) (b : Block) :
    ((init ++ [b]).flatMap (·.idx.bytes)).length / indexSize = init.length + 1 := by
  rw [length_indexes, Nat.mul_div_cancel_left _ (by decide), List.length_append, List.length_singleton]

theorem blockList (h : f.Finished cfg init b groups) :
    f.blockList = init.map loadedBlock ++ [{ loadedBlock b with size := 0 }] := by
  simp only [LogFile.blockList, h.closed, h.index, Option.getD_some, Option.getD_none, indexCount,
    h.indexBlocks]

/-- The file behind `readIndex`. -/
def withIndex (f : LogFile) (init : List Block) (b : Block) : LogFile :=
  { f with
    m_indexFd := some (indexSize * (init.length + 1))
    indexFile := some (((init ++ [b]).flatMap (·.idx.bytes)).take (indexSize * (init.length + 1)))
    m_blocks := some (init.map loadedBlock ++ [{ loadedBlock b with size := 0 }])
    m_blockCount := init.length + 1 }

theorem readIndex (h : f.Finished cfg init b groups) :
    f.allocBlocks.readIndex cfg = some (withIndex f init b) := by
  have hindex : f.allocBlocks.indexFile = some ((init ++ [b]).flatMap (·.idx.bytes)) := h.index
  simp only [LogFile.readIndex, hindex, indexCount, if_pos h.count_le, h.indexBlocks]
  rfl

/-- The file behind `load`. -/
def loaded (f : LogFile) (init : List Block) (b : Block) : LogFile :=
  { withIndex f init b with
    m_blocks := some ((init ++ [b]).map loadedBlock)
    m_offset := f.file.length % 2 ^ 32 }

theorem load_eq (h : f.Finished cfg init b groups) (junk : Nat → UInt8) (fuel : Nat) :
    f.load cfg junk fuel =
      if (f.file.length : Int) - b.idx.offset < cfg.m_defaultBlockSize then
        some (.ok { (withIndex f init b).setBlock init.length
          { loadedBlock b with size := sub32 f.file.length b.idx.offset } with
            m_offset := f.file.length % 2 ^ 32 })
      else (withIndex f init b).recoveryIndexFromLastBlock cfg true junk fuel b.idx.offset
        (f.file.length % 2 ^ 32) := by
  have hlast := List.getElem?_concat_length (l := init.map loadedBlock)
    (a := { loadedBlock b with size := 0 })
  rw [List.length_map] at hlast
  have hcount : (withIndex f init b).m_blockCount = init.length + 1 := rfl
  have hblocks : (withIndex f init b).m_blocks =
      some (init.map loadedBlock ++ [{ loadedBlock b with size := 0 }]) := rfl
  simp only [load, loadIndex, h.readIndex, hcount, hblocks, Option.bind_eq_bind, Option.bind_some,
    if_neg (Nat.succ_ne_zero _), Nat.add_sub_cancel, hlast]
  rfl

theorem load_of_short (h : f.Finished cfg init b groups)
    (hshort : f.file.length < b.idx.offset + cfg.m_defaultBlockSize) (junk : Nat → UInt8) (fuel : Nat) :
    f.load cfg junk fuel = some (.ok (loaded f init b)) := by
  have hsize : sub32 f.file.length b.idx.offset = b.size := by
    rw [← h.last]
    exact sub32_add (h.last.trans_lt h.file_lt)
  have hset : (init.map loadedBlock ++ [{ loadedBlock b with size := 0 }]).set
      (init.map loadedBlock).length (loadedBlock b) = init.map loadedBlock ++ [loadedBlock b] := set_last
  rw [List.length_map] at hset
  rw [h.load_eq, if_pos (by omega), hsize]
  simp only [setBlock, withIndex, loaded, Option.map_some, List.map_append, List.map_cons, List.map_nil]
  rw [← hset]
  rfl

theorem load_of_long (h : f.Finished cfg init b groups)
    (hlong : b.idx.offset + cfg.m_defaultBlockSize ≤ f.file.length) (junk : Nat → UInt8) (fuel : Nat)
    (k : LogFile) : f.load cfg junk fuel ≠ some (.ok k) := by
  rw [h.load_eq, if_neg (by omega)]
  intro hload
  exact Nat.succ_ne_zero _ (recoveryIndex_no_blocks hload).1

theorem loaded_readable (h : f.Finished cfg init b groups) :
    (loaded f init b).Readable groups endMark.bytes := by
  refine ⟨_, rfl, by rw [List.length_map, h.length], ?_⟩
  intro i c g hc hg
  rw [List.getElem?_map] at hc
  obtain ⟨c, hget, rfl⟩ := Option.map_eq_some_iff.mp hc
  obtain ⟨hdata, hsize, hload⟩ := h.text i c g hget hg
  have hnext := h.next i c hget
  rw [h.length] at hnext
  refine ⟨hsize, ?_, hnext⟩
  rw [loadBlock, hdata] at hload
  exact hload

theorem loaded_indexed (h : f.Finished cfg init b groups) : (loaded f init b).Indexed groups := by
  refine ⟨_, rfl, by simp [loaded, withIndex], List.pairwise_map.mpr h.sorted, ?_⟩
  intro i c g hc hg
  rw [List.getElem?_map] at hc
  obtain ⟨c, hget, rfl⟩ := Option.map_eq_some_iff.mp hc
  exact h.begins i c g hget hg

end Finished

/-- A finished file is closed with its blocks on disk. -/
theorem Filled.closed (h : f.Filled cfg init b groups last) (hlt : f.m_offset + raftRpcHeadSize < 2 ^ 32)
    (next : Option Nat) : (closedFile { Filled.finished f init b last with m_next := next }).Finished cfg init
      { b with data := none, size := b.size + raftRpcHeadSize, writedSize := b.size + raftRpcHeadSize }
      (groups ++ [last]) := by
  obtain ⟨blocks, hblocks, hlength, htext⟩ := h.finished_readable
  cases hblocks
  have hfile : (f.file ++ (contents last ++ endMark.bytes)).length = f.file.length + b.size + 6 := by
    rw [List.length_append, List.length_append, ← h.inMemory.size, Nat.add_assoc]
    rfl
  have hoffset := h.inMemory.offset
  constructor
  case closed => rfl
  case length => exact hlength
  -- the entries of every block are in the closed file, behind the last ones the end mark
  case text =>
    intro i c g hc hg
    obtain ⟨hsize, hload, -⟩ := htext i c g hc hg
    refine ⟨?_, hsize, hload⟩
    rcases List.getElem?_snoc_cases hc with ⟨hi, hc⟩ | ⟨rfl, rfl⟩
    · have hi' : i < groups.length := h.length ▸ hi
      exact (h.onDisk i c _ hc (List.getElem?_eq_getElem hi')).data
    · rfl
  case next =>
    intro i c hc
    have hi := (List.getElem?_eq_some_iff.mp hc).1
    rw [hlength] at hi ⊢
    exact (htext i c _ hc (List.getElem?_eq_getElem hi)).2.2
  -- the closed file is longer by the last block and the end mark
  case within =>
    apply forall_mem_snoc
    · intro c hc
      obtain ⟨i, hi, rfl⟩ := List.getElem_of_mem hc
      have hi' : i < groups.length := h.length ▸ hi
      have hend := (h.onDisk i _ _ (List.getElem?_eq_getElem hi) (List.getElem?_eq_getElem hi')).end_le
      simp only [closedFile, finished, hfile]
      omega
    · simp only [closedFile, finished, hfile, hoffset, raftRpcHeadSize]
      omega
  case last =>
    simp only [closedFile, finished, hfile, hoffset, raftRpcHeadSize]
    omega
  case file_lt =>
    have hend := h.offset
    simp only [raftRpcHeadSize] at hlt
    simp only [closedFile, finished, hfile]
    omega
  -- a block begins with an entry of its group, and the entries are proper
  case fits =>
    have hfits : ∀ (i : Nat) (c : Block), (init ++ [b])[i]? = some c → c.idx.logIndex.Fits := by
      intro i c hc
      have hi := (List.getElem?_eq_some_iff.mp hc).1
      have hi' : i < (groups ++ [last]).length := by simpa [h.length] using hi
      have hg : (groups ++ [last])[i]? = some (groups ++ [last])[i] := List.getElem?_eq_getElem hi'
      have hbegin := h.begins i c _ hc hg
      obtain ⟨e, he, hidx⟩ := Option.map_eq_some_iff.mp hbegin
      rw [← hidx]
      have hmem : e ∈ (groups ++ [last]).flatten :=
        List.mem_flatten.mpr ⟨_, List.getElem_mem hi', List.mem_of_mem_head? he⟩
      exact (h.rising.proper e hmem).1.fits
    apply forall_mem_snoc
    · intro c hc
      obtain ⟨i, hi, rfl⟩ := List.getElem_of_mem hc
      exact hfits i _ ((List.getElem?_append_left hi).trans (List.getElem?_eq_getElem hi))
    · exact hfits init.length b List.getElem?_concat_length
  case joined => exact joined_last h.joined rfl
  case sorted => exact sorted_last h.sorted rfl
  case begins =>
    intro i c g hc hg
    rcases List.getElem?_snoc_cases hc with ⟨hi, hc⟩ | ⟨rfl, rfl⟩
    · exact h.begins i c g ((List.getElem?_append_left hi).trans hc) hg
    · exact h.begins _ b g List.getElem?_concat_length hg
  case count_le => exact h.count_le
  case index =>
    have hlisted := h.listed.file
    rw [List.flatMap_append, List.flatMap_singleton] at hlisted ⊢
    exact hlisted

end LogFile

end DBStream.Native.CLUSTER
