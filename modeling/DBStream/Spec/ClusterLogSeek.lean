import DBStream.Spec.ClusterLogClosed
import DBStream.Spec.ClusterLogFiles

/-!
# Seeking a stored entry

`seek` searches in the file that `find` gives, which it loads if the file was closed.  The files that
are found have never been rolled back: appends have filled them, and all but the last one were finished
and closed.  So the entry is where the block list says, and `seek` succeeds if the file can be loaded and
`findBlock` finds the block.
-/

namespace DBStream.Native.CLUSTER

namespace LogFile

variable {f f' k : LogFile} {cfg : LogConfig} {blocks blocks' init : List Block} {b : Block}
  {groups : List (List LogEntryRpcBase)} {e : LogEntryRpcBase} {done todo last : List LogEntryRpcBase}
  {mark : List UInt8} {x : LogIndexInfo} {j p : Nat}

/-! ## Searching -/

private theorem containing_congr (hidx : blocks'.map (·.idx) = blocks.map (·.idx)) :
    Containing blocks' x p ↔ Containing blocks x p := by
  have hmap : ∀ l : List Block, Containing l x p ↔ ∃ i, (l.map (·.idx))[p]? = some i ∧ i.logIndex ≤ x ∧
      ∀ j ∈ l.map (·.idx), j.logIndex ≤ x → j.logIndex ≤ i.logIndex := by
    intro l
    simp only [Containing, List.getElem?_map, Option.map_eq_some_iff, List.forall_mem_map]
    constructor
    · rintro ⟨b, hb, hle⟩
      exact ⟨_, ⟨b, hb, rfl⟩, hle⟩
    · rintro ⟨_, ⟨b, hb, rfl⟩, hle⟩
      exact ⟨b, hb, hle⟩
  rw [hmap, hmap, hidx]

private theorem answered_congr (hidx : blocks'.map (·.idx) = blocks.map (·.idx))
    (hlast : f'.m_logIndex = f.m_logIndex) : Answered f' blocks' x p ↔ Answered f blocks x p := by
  have hlength : blocks'.length = blocks.length := by simpa using congrArg List.length hidx
  have hmap : ∀ l : List Block,
      (∃ b ∈ l, b.idx.logIndex = x) ↔ ∃ i ∈ l.map (·.idx), i.logIndex = x := by
    intro l
    simp
  simp only [Answered, hmap, hidx, hlength, hlast, endLogIndex]

/-- `findBlock` answers rightly for the index. -/
def Answers (f : LogFile) (x : LogIndexInfo) : Prop :=
  ∀ p, Containing f.blockList x p → Answered f f.blockList x p

theorem Answers.congr (hidx : f'.blockList.map (·.idx) = f.blockList.map (·.idx))
    (hlast : f'.m_logIndex = f.m_logIndex) : f'.Answers x ↔ f.Answers x := by
  simp only [Answers, containing_congr hidx, answered_congr hidx hlast]

/-- An iterator that stands at the entry. -/
def Iterator.At (it : Iterator) (e : LogEntryRpcBase) : Prop := it.data.slice it.m_offset e.size = e.bytes

theorem Readable.search_iff (h : f.Readable groups mark) (hindexed : f.Indexed groups)
    (hne : ∀ g ∈ groups, g ≠ []) (hrising : Rising groups.flatten f.m_logIndex)
    (hg : groups[j]? = some (done ++ e :: todo)) :
    ((∃ it, Iterator.search f e.logIndex = some (.ok it)) ↔ f.Answers e.logIndex) ∧
      ∀ it, Iterator.search f e.logIndex = some (.ok it) → it.At e := by
  obtain ⟨blocks, hblocks, hcontaining, hsearch⟩ := h.search hindexed hne hrising hg
  obtain ⟨blocks', hblocks', -, hsorted, -⟩ := hindexed
  cases hblocks.symm.trans hblocks'
  have hlist : f.blockList = blocks := by rw [blockList, hblocks, Option.getD_some]
  have hmem : e ∈ groups.flatten := by
    rw [flatten_split hg]
    simp
  obtain ⟨hproper, hle⟩ := hrising.proper e hmem
  have hanswers : f.Answers e.logIndex ↔ Found f blocks e.logIndex j := by
    rw [Answers, hlist]
    constructor
    · intro hall
      exact (answered_iff.mp (hall j hcontaining)).mpr hle
    · intro hfound p hp
      rw [hp.unique hcontaining hsorted]
      exact answered_iff.mpr (iff_of_true hfound hle)
  rw [hsearch, hanswers]
  by_cases hfound : Found f blocks e.logIndex j
  · rw [if_pos hfound]
    refine ⟨iff_of_true ⟨_, rfl⟩ hfound, ?_⟩
    rintro _ ⟨⟩
    have htext : blockText groups.length mark j (done ++ e :: todo) = contents done ++
        (e.bytes ++ (contents todo ++ if j + 1 = groups.length then mark else [])) := by
      simp [blockText]
    exact (entry_at (hproper.size_lt.trans (by decide)) htext).2.2.2
  · rw [if_neg hfound]
    refine ⟨iff_of_false (fun hand => ?_) hfound, ?_⟩
    · obtain ⟨it, hit⟩ := hand
      cases hit
    · rintro it hit
      cases hit

/-! ## The files of a log -/

/-- `use` gets the blocks of the file: it was not closed, or its last block with the mark is shorter
    than a block of the default size. -/
def Loads (f : LogFile) (cfg : LogConfig) : Prop :=
  f.m_blocks = none → ∀ b ∈ f.blockList.getLast?, f.file.length < b.idx.offset + cfg.m_defaultBlockSize

/-- A file as the appends of a log leave it, with the entries of its blocks. -/
inductive Stocked (cfg : LogConfig) : LogFile → List (List LogEntryRpcBase) → Prop
  | fresh (fileId : Nat) (p q : LogIndexInfo) : Stocked cfg (create fileId p q) []
  | filled {f : LogFile} {init : List Block} {b : Block} {groups : List (List LogEntryRpcBase)}
      {last : List LogEntryRpcBase} (h : f.Filled cfg init b groups last) :
      Stocked cfg f (groups ++ [last])
  | closed {f : LogFile} {init : List Block} {b : Block} {groups : List (List LogEntryRpcBase)}
      {last : List LogEntryRpcBase} (h : f.Filled cfg init b groups last)
      (hlt : f.m_offset + raftRpcHeadSize < 2 ^ 32) (next : Option Nat) :
      Stocked cfg (closedFile { Filled.finished f init b last with m_next := next }) (groups ++ [last])

theorem Filled.ne_nil (h : f.Filled cfg init b groups last) : ∀ g ∈ groups ++ [last], g ≠ [] := by
  intro g hg
  obtain ⟨i, hi, rfl⟩ := List.getElem_of_mem hg
  have hlength : (init ++ [b]).length = (groups ++ [last]).length := by simp [h.length]
  have hbegin := h.begins i _ _ (List.getElem?_eq_getElem (hlength ▸ hi)) (List.getElem?_eq_getElem hi)
  intro hnil
  rw [hnil] at hbegin
  cases hbegin

/-- Searching a file of a log for one of its entries, after `use`. -/
theorem Stocked.search_iff (h : Stocked cfg f groups) (hg : groups[j]? = some (done ++ e :: todo))
    (junk : Nat → UInt8) (fuel : Nat) :
    ((∃ k it, f.use cfg junk fuel = some (.ok k) ∧ Iterator.search k e.logIndex = some (.ok it)) ↔
      f.Loads cfg ∧ f.Answers e.logIndex) ∧
    ∀ k it, f.use cfg junk fuel = some (.ok k) → Iterator.search k e.logIndex = some (.ok it) →
      it.At e := by
  cases h with
  | fresh => cases hg
  | @filled _ init b _ _ h =>
    -- the blocks are in memory: `use` reads nothing
    have huse : f.use cfg junk fuel = some (.ok f) := by simp [use, h.blocks_eq]
    have hloads : f.Loads cfg := fun hnone => by
      rw [h.blocks_eq] at hnone
      cases hnone
    obtain ⟨hiff, hat⟩ :=
      h.readable.search_iff ⟨_, h.blocks_eq, by simp [h.count], h.sorted, h.begins⟩ h.ne_nil h.rising hg
    rw [← hiff, huse]
    constructor
    · constructor
      · rintro ⟨k, it, ⟨⟩, hit⟩
        exact ⟨hloads, it, hit⟩
      · rintro ⟨-, it, hit⟩
        exact ⟨f, it, rfl, hit⟩
    · rintro k it ⟨⟩ hit
      exact hat it hit
  | @closed f₀ init b _ _ h hlt next =>
    have hfinished := h.closed hlt next
    have hrising := h.rising
    have hne := h.ne_nil
    -- a closed file is read back by `load`, which reads a whole block at the last one
    set f := closedFile { Filled.finished f₀ init b _ with m_next := next } with hf
    have huse : f.use cfg junk fuel = f.load cfg junk fuel := if_pos hfinished.closed
    have hlist := hfinished.blockList
    have hlast : f.blockList.getLast? = some { loadedBlock
        { b with data := none, size := b.size + raftRpcHeadSize, writedSize := b.size + raftRpcHeadSize } with
          size := 0 } := by
      rw [hlist, List.getLast?_append, List.getLast?_singleton, Option.some_or]
    have hloads : f.Loads cfg ↔ f.file.length < b.idx.offset + cfg.m_defaultBlockSize := by
      simp only [Loads, hfinished.closed, forall_const, hlast, Option.mem_def, Option.some.injEq,
        forall_eq']
      rfl
    rw [huse, hloads]
    by_cases hshort : f.file.length < b.idx.offset + cfg.m_defaultBlockSize
    · have hload := hfinished.load_of_short hshort junk fuel
      have hsame : (Finished.loaded f init { b with
          data := none, size := b.size + raftRpcHeadSize, writedSize := b.size + raftRpcHeadSize }).Answers
            e.logIndex ↔ f.Answers e.logIndex := by
        refine Answers.congr ?_ rfl
        rw [hlist]
        simp [blockList, Finished.loaded, loadedBlock]
      obtain ⟨hiff, hat⟩ :=
        hfinished.loaded_readable.search_iff hfinished.loaded_indexed hne hrising hg
      rw [← hsame, ← hiff, hload]
      constructor
      · constructor
        · rintro ⟨k, it, ⟨⟩, hit⟩
          exact ⟨hshort, it, hit⟩
        · rintro ⟨-, it, hit⟩
          exact ⟨_, it, rfl, hit⟩
      · rintro k it ⟨⟩ hit
        exact hat it hit
    -- with a whole block behind the last index entry `load` does not succeed
    · have hlong := hfinished.load_of_long (Nat.not_lt.mp hshort) junk fuel
      refine ⟨iff_of_false ?_ fun hand => hshort hand.1, fun k _ hk _ => absurd hk (hlong k)⟩
      rintro ⟨k, it, hk, -⟩
      exact hlong k hk

/-! ## What `append` does to them -/

theorem Stocked.append (h : Stocked cfg f groups) (hopen : ∃ blocks, f.Open blocks) (he : e.Proper)
    (happend : f.append cfg e = some (.ok f')) :
    ∃ groups', Stocked cfg f' groups' ∧ groups'.flatten = groups.flatten ++ [e] := by
  obtain ⟨blocks, hopen⟩ := hopen
  have hend : f.m_offset + e.size < 2 ^ 32 := by
    have hoffset := hopen.offset_lt
    have hsize := he.size_lt
    omega
  cases h with
  | fresh =>
    have hfilled := (Filled.first he happend).1
    exact ⟨_, .filled hfilled, rfl⟩
  | filled h =>
    rcases h.append he hend happend with ⟨b', hfilled⟩ | ⟨c, b', hfilled⟩
    · exact ⟨_, .filled hfilled, by simp⟩
    · exact ⟨_, .filled hfilled, by simp⟩
  | closed =>
    have hblocks := hopen.blocks_eq
    cases hblocks

theorem Stocked.finish (h : Stocked cfg f groups) (hopen : ∃ blocks, f.Open blocks)
    (hfinish : f.CanFinish) {next : Nat} (hclosed : ClusterLog.FinishesTo f next f') :
    Stocked cfg f' groups := by
  obtain ⟨blocks, hopen⟩ := hopen
  cases h with
  | fresh => exact absurd hfinish create_not_canFinish
  | filled h =>
    obtain ⟨⟨id, c⟩, hc, hroom⟩ := hfinish
    cases h.currentBlock.symm.trans hc
    obtain ⟨f₁, hf₁, rfl⟩ := hclosed
    cases (h.finish hroom).symm.trans hf₁
    have hoffset := hopen.offset_lt
    refine .closed h ?_ (some next)
    rw [raftRpcHeadSize]
    omega
  | closed =>
    have hblocks := hopen.blocks_eq
    cases hblocks

end LogFile

namespace ClusterLog

open LogFile

variable {l : ClusterLog} {cfg : LogConfig} {e : LogEntryRpcBase} {f f' : LogFile} {a : Accepted}
  {stored : Set Accepted}

/-! ## Runs -/

/-- The files up to the current one that `m_files` has are as appends have filled them, and have the
    entries that were stored there. -/
structure Shelves (cfg : LogConfig) (l : ClusterLog) (stored : Set Accepted) : Prop where
  current : l.m_files ≠ [] → ∃ k, (k, l.m_currentLogFile) ∈ l.m_files
  stocked : ∀ p ∈ l.m_files, p.2 ≤ l.m_currentLogFile → ∃ f groups, l.files[p.2]? = some f ∧
    Stocked cfg f groups ∧ ∀ a ∈ stored, a.file = p.2 → a.entry ∈ groups.flatten

namespace Shelves

theorem first : Shelves cfg first ∅ where
  current := fun _ => ⟨_, List.mem_singleton_self _⟩
  stocked := by
    intro p hp _
    rw [List.mem_singleton.mp hp]
    exact ⟨_, _, rfl, .fresh 1 ⟨1, 0⟩ ⟨1, 1⟩, fun a ha => by cases ha⟩

theorem mono (h : Shelves cfg l stored) {stored' : Set Accepted} (hsub : stored' ⊆ stored) :
    Shelves cfg l stored' where
  current := h.current
  stocked := by
    intro p hp hle
    obtain ⟨f, groups, hf, hstocked, hall⟩ := h.stocked p hp hle
    exact ⟨f, groups, hf, hstocked, fun a ha => hall a (hsub ha)⟩

theorem accept (h : Shelves cfg l stored) (e : LogEntryRpcBase) :
    Shelves cfg (l.accept e).2 stored := by
  obtain ⟨code, i, heq⟩ := accept_eq l e
  rw [heq]
  exact ⟨h.current, h.stocked⟩

theorem moved {l' : ClusterLog} {i : Nat} {g g' : LogFile} (h : Shelves cfg l stored)
    (hmoved : l.Moved l' i g g') : Shelves cfg l' stored := by
  obtain ⟨hfound, hlt, -, -, -, rfl⟩ := hmoved
  constructor
  · intro hfiles
    rcases hfound with rfl | hmem
    · exact h.current hfiles
    · exact hmem
  · intro p hp hle
    replace hle : p.2 ≤ i := hle
    obtain ⟨f, groups, hf, hstocked⟩ := h.stocked p hp (by omega)
    refine ⟨f, groups, ?_, hstocked⟩
    rw [ClusterLog.setFile, List.getElem?_set_ne (by omega)]
    exact hf

theorem emptied (hok : l.Ok) (hemptied : l.Emptied e f f') : Shelves cfg (l.rolledBack f') stored := by
  obtain ⟨-, blocks, -, hcases⟩ := hok.emptied_cases hemptied
  have hsame : f'.m_logIndex = f.m_logIndex := by
    rcases hcases with rfl | ⟨-, -, -, hcut⟩
    · rfl
    · rw [hcut.same]
  -- every key is the last index of the file
  have hfiles : (l.rolledBack f').m_files = [] := by
    apply List.filter_eq_nil_iff.mpr
    intro p hp
    simp [hemptied.keys p hp, hsame]
  constructor
  · exact fun hne => absurd hfiles hne
  · intro p hp
    rw [hfiles] at hp
    cases hp

theorem stores (h : Shelves cfg l stored) (hok : l.Ok) (hf : l.current = some f) (he : e.Proper)
    (hlast : l.m_currentLogFile + 1 = l.files.length) (happend : f.append cfg e = some (.ok f')) :
    Shelves cfg (l.setFile l.m_currentLogFile f')
      { a | a ∈ stored ∨ a.file = l.m_currentLogFile ∧ a.entry = e } where
  current := h.current
  stocked := by
    intro p hp hle
    obtain ⟨g, groups, hg, hstocked, hall⟩ := h.stocked p hp hle
    by_cases hpi : p.2 = l.m_currentLogFile
    · rw [hpi] at hg hall ⊢
      cases hf.symm.trans hg
      obtain ⟨groups', hstocked', hflatten⟩ := hstocked.append (hok.opened hlast f hf) he happend
      refine ⟨f', groups', List.getElem?_set_self hok.current_lt, hstocked', ?_⟩
      rintro a (ha | ⟨-, rfl⟩) hfile
      · rw [hflatten]
        exact List.mem_append_left _ (hall a ha hfile)
      · rw [hflatten]
        exact List.mem_append_right _ (List.mem_singleton_self _)
    · refine ⟨g, groups, ?_, hstocked, ?_⟩
      · rw [ClusterLog.setFile, List.getElem?_set_ne (Ne.symm hpi)]
        exact hg
      · rintro a (ha | ⟨hcurrent, -⟩) hfile
        · exact hall a ha hfile
        · exact absurd (hfile.symm.trans hcurrent) hpi

/-- The entry that does not fit begins the next file. -/
theorem rotates {g : LogFile} (h : Shelves cfg l stored) (hok : l.Ok) (hin : ∀ a ∈ stored, a.In l)
    (hf : l.current = some f) (hprev : f.m_logIndex = e.prevRecordLogIndex) (he : e.Proper)
    (hfinish : f.CanFinish) (hclosed : FinishesTo f l.files.length f')
    (happend : (LogFile.create (f.m_fileId + 1) f.m_logIndex e.logIndex).append cfg e = some (.ok g)) :
    Shelves cfg ((l.rotated f f' e.logIndex).setFile l.files.length g)
      { a | a ∈ stored ∨ a.file = l.files.length ∧ a.entry = e } := by
  have hlast := hok.last_of_canFinish hf hfinish
  have hfiles : ((l.rotated f f' e.logIndex).setFile l.files.length g).files =
      l.files.set l.m_currentLogFile f' ++ [g] := by
    simp [ClusterLog.rotated, ClusterLog.setFile]
  have hlt := hok.begin_lt hf hfinish (hprev ▸ he.prev_lt)
  constructor
  · intro _
    refine ⟨_, SortedEntries.mem_insert_of_new _ ?_⟩
    intro p hp
    obtain ⟨k, hk, hbegin⟩ := hok.keys p hp
    have hp' := (List.getElem?_eq_some_iff.mp hk).1
    rw [← hbegin]
    rcases Nat.lt_or_eq_of_le (show p.2 ≤ l.m_currentLogFile by omega) with hi | hi
    · exact ((hok.begins _ _ k f hi hk hf).trans hlt).ne
    · rw [hi] at hk
      cases hf.symm.trans hk
      exact hlt.ne
  · intro p hp _
    rw [hfiles]
    rcases SortedEntries.mem_insert hp with rfl | hp
    · -- the new file has the new entry only
      have hfilled := (Filled.first he happend).1
      refine ⟨g, _, by simp, .filled hfilled, ?_⟩
      rintro a (ha | ⟨-, rfl⟩) hfile
      · obtain ⟨k, hk, -⟩ := hin a ha
        have hlt := (List.getElem?_eq_some_iff.mp hk).1
        exact absurd hfile hlt.ne
      · simp
    · obtain ⟨k, hk, -⟩ := hok.keys p hp
      have hlt := (List.getElem?_eq_some_iff.mp hk).1
      obtain ⟨k, groups, hk, hstocked, hall⟩ := h.stocked p hp (by omega)
      have hold : ∀ a, (a ∈ stored ∨ a.file = l.files.length ∧ a.entry = e) → a.file = p.2 →
          a.entry ∈ groups.flatten := by
        rintro a (ha | ⟨hnew, -⟩) hfile
        · exact hall a ha hfile
        · exact absurd (hfile.symm.trans hnew) hlt.ne
      rw [List.getElem?_append_left (by simpa using hlt)]
      by_cases hpi : p.2 = l.m_currentLogFile
      · rw [hpi] at hk
        cases hf.symm.trans hk
        refine ⟨f', groups, ?_, hstocked.finish (hok.opened hlast f hf) hfinish hclosed, hold⟩
        rw [hpi]
        exact List.getElem?_set_self hok.current_lt
      · refine ⟨k, groups, ?_, hstocked, hold⟩
        rw [List.getElem?_set_ne (Ne.symm hpi)]
        exact hk

theorem append {fuel : Nat} {r : Option ErrorCode × ClusterLog} (h : Shelves cfg l stored) (hok : l.Ok)
    (hin : ∀ a ∈ stored, a.In l) (hcfg : cfg.m_defaultLogFileSize ≤ 2 ^ 31) (he : e.Proper)
    (happend : ClusterLog.append cfg fuel l e = some r) :
    Shelves cfg r.2 (nextStored stored l e r) := by
  obtain ⟨f, hf⟩ := hok.current_eq
  by_cases hprev : f.m_logIndex = e.prevRecordLogIndex
  · rcases hok.outcome_of_eq he hcfg hf hprev happend with
      ⟨f', hlast, hstore, -, rfl⟩ | ⟨f', g, hfinish, -, -, hclosed, hstore, -, rfl⟩
    · refine ((h.stores hok hf he hlast hstore).accept e).mono ?_
      rintro a ⟨ha | ⟨-, rfl⟩, -⟩
      · exact .inl ha
      · exact .inr ⟨(accept_files _ e).2, rfl⟩
    · refine ((h.rotates hok hin hf hprev he hfinish hclosed hstore).accept e).mono ?_
      rintro a ⟨ha | ⟨-, rfl⟩, -⟩
      · exact .inl ha
      · exact .inr ⟨(accept_files _ e).2, rfl⟩
  · have hsub : nextStored stored l e r ⊆ stored := by
      rintro a ⟨ha | ⟨⟨g, hg, hg'⟩, -⟩, -⟩
      · exact ha
      · cases hf.symm.trans hg
        exact absurd hg' hprev
    refine mono ?_ hsub
    cases hok.outcome he hcfg happend with
    | refused => exact h
    | moved _ hmoved => exact h.moved hmoved
    | stored hf' hprev' | rotated hf' hprev' =>
      cases hf.symm.trans hf'
      exact absurd hprev' hprev
    | emptied _ hemptied => exact emptied hok hemptied

end Shelves

theorem StoreRun.shelves (h : StoreRun cfg l stored) (hcfg : cfg.m_defaultLogFileSize ≤ 2 ^ 31) :
    Shelves cfg l stored := by
  induction h with
  | first => exact .first
  | append h he happend ih =>
    obtain ⟨hok, -, hstored⟩ := h.invariant hcfg
    exact ih.append hok (fun a ha => (hstored a ha).1) hcfg he happend

/-! ## `seek` -/

theorem Iterator.seek_eq_ok {junk : Nat → UInt8} {fuel i : Nat} {x : LogIndexInfo} {it : Iterator}
    (hfind : l.find x = some (some i)) (hf : l.files[i]? = some f) :
    Iterator.seek l cfg junk fuel x = some (.ok it) ↔ ∃ k m_iter, f.use cfg junk fuel = some (.ok k) ∧
      LogFile.Iterator.search k x = some (.ok m_iter) ∧ it = ⟨i, m_iter⟩ := by
  simp only [Iterator.seek, hfind, hf, Option.bind_eq_bind, Option.bind_some, dsReturnIfFailed_eq_ok,
    Option.some.injEq, Except.ok.injEq]
  constructor
  · rintro ⟨k, hk, m_iter, hsearch, rfl⟩
    exact ⟨k, m_iter, hk, hsearch, rfl⟩
  · rintro ⟨k, m_iter, hk, hsearch, rfl⟩
    exact ⟨k, hk, m_iter, hsearch, rfl⟩

/-- `find` gives the file of the entry. -/
def Keyed (l : ClusterLog) (a : Accepted) : Prop :=
  l.m_files ≠ [] ∧ (a.file = l.m_currentLogFile ∨
    a.file < l.m_currentLogFile ∧ (a.entry.logIndex, a.file) ∈ l.m_files)

/-- In every log of a run, `find` gives the file of a stored entry if this is the current one or begins
    at the entry, and `seek` then finds the entry if the file can be loaded and `findBlock` answers for
    it.  For any other entry of an earlier file there is no file, and `seek` fails. -/
theorem seek_stored_iff (hcfg : cfg.m_defaultLogFileSize ≤ 2 ^ 31) (h : StoreRun cfg l stored)
    (ha : a ∈ stored) (junk : Nat → UInt8) (fuel : Nat) :
    a.In l ∧
    (l.find a.entry.logIndex = some (some a.file) ↔ l.Keyed a) ∧
    ((l.find a.entry.logIndex = some (some a.file) ∧
        ∃ it, Iterator.seek l cfg junk fuel a.entry.logIndex = some (.ok it)) ↔
      l.Keyed a ∧ ∃ f, l.files[a.file]? = some f ∧ f.Loads cfg ∧ f.Answers a.entry.logIndex) ∧
    (∀ it, l.find a.entry.logIndex = some (some a.file) →
      Iterator.seek l cfg junk fuel a.entry.logIndex = some (.ok it) →
        it.m_currentLogFile = a.file ∧ it.m_iter.At a.entry) ∧
    (a.file < l.m_currentLogFile → (a.entry.logIndex, a.file) ∉ l.m_files →
      l.find a.entry.logIndex = some none ∧
        Iterator.seek l cfg junk fuel a.entry.logIndex = some (.error .logIndexNotFound)) := by
  obtain ⟨hin, hiff, hnone⟩ := find_stored hcfg h ha
  have hshelves := h.shelves hcfg
  -- a file that is found has the entry in one of its blocks
  have hfile : l.Keyed a → ∃ f groups, l.files[a.file]? = some f ∧ Stocked cfg f groups ∧
      ∃ (j : Nat) (done todo : List LogEntryRpcBase), groups[j]? = some (done ++ a.entry :: todo) := by
    rintro ⟨hfiles, hcases⟩
    obtain ⟨k, hk, hle⟩ : ∃ k, (k, a.file) ∈ l.m_files ∧ a.file ≤ l.m_currentLogFile := by
      rcases hcases with heq | ⟨hlt, hmem⟩
      · obtain ⟨k, hk⟩ := hshelves.current hfiles
        exact ⟨k, heq ▸ hk, heq.le⟩
      · exact ⟨_, hmem, hlt.le⟩
    obtain ⟨f, groups, hf, hstocked, hall⟩ := hshelves.stocked _ hk hle
    obtain ⟨g, hg, hmem⟩ := List.mem_flatten.mp (hall a ha rfl)
    obtain ⟨j, hj⟩ := List.mem_iff_getElem?.mp hg
    obtain ⟨done, todo, rfl⟩ := List.append_of_mem hmem
    exact ⟨f, groups, hf, hstocked, j, done, todo, hj⟩
  refine ⟨hin, hiff, ?_, ?_, fun hlt hmem => ⟨(hnone hlt hmem).1, (hnone hlt hmem).2 junk fuel⟩⟩
  · constructor
    · rintro ⟨hfind, it, hseek⟩
      have hkeyed := hiff.mp hfind
      obtain ⟨f, groups, hf, hstocked, j, done, todo, hg⟩ := hfile hkeyed
      obtain ⟨k, m_iter, huse, hsearch, -⟩ := (Iterator.seek_eq_ok hfind hf).mp hseek
      exact ⟨hkeyed, f, hf, (hstocked.search_iff hg junk fuel).1.mp ⟨k, m_iter, huse, hsearch⟩⟩
    · rintro ⟨hkeyed, f, hf, hloads⟩
      have hfind := hiff.mpr hkeyed
      obtain ⟨f', groups, hf', hstocked, j, done, todo, hg⟩ := hfile hkeyed
      cases hf.symm.trans hf'
      obtain ⟨k, m_iter, huse, hsearch⟩ := (hstocked.search_iff hg junk fuel).1.mpr hloads
      exact ⟨hfind, _, (Iterator.seek_eq_ok hfind hf).mpr ⟨k, m_iter, huse, hsearch, rfl⟩⟩
  · intro it hfind hseek
    obtain ⟨f, groups, hf, hstocked, j, done, todo, hg⟩ := hfile (hiff.mp hfind)
    obtain ⟨k, m_iter, huse, hsearch, rfl⟩ := (Iterator.seek_eq_ok hfind hf).mp hseek
    exact ⟨rfl, (hstocked.search_iff hg junk fuel).2 k m_iter huse hsearch⟩

/-- Seven entries in two files of two blocks: the second entry of the inner block of the last file is
    found. -/
theorem seek_stored_iff_seven : ∃ l stored a, StoreRun ⟨100, 300⟩ l stored ∧ a ∈ stored ∧
    a.entry = entry 5 0 ∧ a.file = 1 ∧ ∃ it,
      Iterator.seek l ⟨100, 300⟩ (fun _ => 0) 10 ⟨1, 6⟩ = some (.ok it) ∧ it.m_currentLogFile = 1 ∧
        it.m_iter.At (entry 5 0) := by
  have hexec : (appendAll ⟨100, 300⟩ 2 first ((List.range 7).map (entry · 0))).map (fun l =>
      (l.m_currentLogFile, l.m_files, l.files.map fun f =>
        (f.m_beginLogIndex, f.m_logIndex, f.m_blocks.isSome, f.blockList.map (·.idx.logIndex)))) =
      some (1, [(⟨1, 1⟩, 0), (⟨1, 5⟩, 1)],
        [(⟨1, 1⟩, ⟨1, 4⟩, false, [⟨1, 1⟩, ⟨1, 3⟩]), (⟨1, 5⟩, ⟨1, 7⟩, true, [⟨1, 5⟩, ⟨1, 7⟩])]) := by
    rfl
  obtain ⟨l, hl, hfacts⟩ := Option.map_eq_some_iff.mp hexec
  simp only [Prod.mk.injEq] at hfacts
  obtain ⟨hcurrent, hfiles, hlist⟩ := hfacts
  obtain ⟨f₀, files, hsplit, hf₀, hlist⟩ := List.map_eq_cons_iff.mp hlist
  obtain ⟨f, files, rfl, hf, hlist⟩ := List.map_eq_cons_iff.mp hlist
  rw [List.map_eq_nil_iff.mp hlist] at hsplit
  simp only [Prod.mk.injEq] at hf₀ hf
  obtain ⟨-, hlast, hsome, hblocks⟩ := hf
  obtain ⟨b₀, blocks, hblocks, h₀, hrest⟩ := List.map_eq_cons_iff.mp hblocks
  obtain ⟨b₁, blocks, rfl, h₁, hrest⟩ := List.map_eq_cons_iff.mp hrest
  rw [List.map_eq_nil_iff.mp hrest] at hblocks
  have hproper : ∀ e ∈ (List.range 7).map (entry · 0), e.Proper := by
    intro e he
    obtain ⟨i, hi, rfl⟩ := List.mem_map.mp he
    have := List.mem_range.mp hi
    exact entry_proper (by omega)
  obtain ⟨stored, hrun, -, hall⟩ := StoreRun.first.appendAll (by decide) hproper hl
  obtain ⟨a, ha, hentry⟩ := hall (entry 5 0) (List.mem_map.mpr ⟨5, by simp, rfl⟩)
  have hf : l.files[1]? = some f := by rw [hsplit]; rfl
  -- the first file ends before the entry
  have hfile : a.file = 1 := by
    obtain ⟨-, -, hstored⟩ := hrun.invariant (by decide)
    obtain ⟨g, hg, -, hle⟩ := (hstored a ha).2.within
    rw [hentry] at hle
    have hlt := (List.getElem?_eq_some_iff.mp hg).1
    rw [hsplit] at hg hlt
    rcases Nat.lt_succ_iff_lt_or_eq.mp hlt with hzero | hone
    · rw [Nat.lt_one_iff.mp hzero] at hg
      cases hg
      rw [hf₀.2.1] at hle
      exact absurd hle (by decide)
    · exact hone
  -- the halving of two places looks at the last one only
  have hanswers : f.Answers (entry 5 0).logIndex := by
    rintro p ⟨b, hb, hle, -⟩
    rw [hblocks] at hb ⊢
    rcases p with _ | _ | p
    · have hne : ¬ ∃ b ∈ [b₀, b₁], b.idx.logIndex = (entry 5 0).logIndex := by
        simp [h₀, h₁, entry]
      rw [Answered, if_neg hne, if_neg (by simp), hlast]
      exact iff_of_true (by simp [probes]) (by decide)
    · cases hb
      rw [h₁] at hle
      exact absurd hle (by decide)
    · cases hb
  obtain ⟨-, hkeyed, hseek, hat, -⟩ := seek_stored_iff (by decide) hrun ha (fun _ => 0) 10
  have hfind : l.find a.entry.logIndex = some (some a.file) :=
    hkeyed.mpr ⟨by simp [hfiles], .inl (hfile.trans hcurrent.symm)⟩
  obtain ⟨-, it, hit⟩ := hseek.mpr ⟨hkeyed.mp hfind, f, hfile ▸ hf,
    fun hnone => by simp [hnone] at hsome, hentry ▸ hanswers⟩
  obtain ⟨hcur, hit'⟩ := hat it hfind hit
  rw [hentry] at hit hit'
  exact ⟨l, stored, a, hrun, ha, hentry, hfile, it, hit, hcur.trans hfile, hit'⟩

end ClusterLog

end DBStream.Native.CLUSTER
