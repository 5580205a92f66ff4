import DBStream.ForStd.Loops
import DBStream.Spec.ClusterLogRollback

/-!
# Runs of the cluster log

One entry into `append` of a log whose last file is open and whose other files are closed.
-/

namespace DBStream.Native.CLUSTER

namespace LogFile

variable {f f' : LogFile} {cfg : LogConfig} {blocks : List Block} {e : LogEntryRpcBase}
  {logIndex : LogIndexInfo}

/-- A file after `close`. -/
structure Closed (f : LogFile) : Prop where
  fd : f.m_fd = none
  blocks : f.m_blocks = none

/-- A file that takes entries from its first index on. -/
structure Open (f : LogFile) (blocks : List Block) : Prop extends f.Kept blocks where
  starts : blocks = [] → ∀ x, f.m_logIndex < x → f.m_beginLogIndex ≤ x

theorem Kept.begin_le (h : f.Kept blocks) (hblocks : blocks ≠ []) :
    f.m_beginLogIndex ≤ f.m_logIndex := by
  obtain ⟨b, hb⟩ := List.exists_mem_of_ne_nil _ hblocks
  exact (h.bounds b hb).1.trans (h.bounds b hb).2

theorem Open.begin_le_of_lt (h : f.Open blocks) {x : LogIndexInfo} (hx : f.m_logIndex < x) :
    f.m_beginLogIndex ≤ x := by
  by_cases hblocks : blocks = []
  · exact h.starts hblocks x hx
  · exact (h.begin_le hblocks).trans hx.le

theorem Stores.opened (h : f.Stores f' e) : ∃ blocks, f'.Open blocks := by
  obtain ⟨blocks, hkept, hblocks⟩ := h.kept
  exact ⟨blocks, hkept, fun hnil => absurd hnil hblocks⟩

theorem Closed.currentBlock (h : f.Closed) : f.currentBlock = none := by
  simp [LogFile.currentBlock, h.blocks]

theorem Closed.not_takes (h : f.Closed) : ¬ f.Takes cfg e := by
  rintro ⟨-, ⟨-, hblocks, -⟩ | ⟨p, hp, -⟩⟩
  · exact hblocks h.blocks
  · rw [h.currentBlock] at hp
    cases hp

theorem Closed.not_canFinish (h : f.Closed) : ¬ f.CanFinish := by
  rintro ⟨p, hp, -⟩
  rw [h.currentBlock] at hp
  cases hp

private theorem close_of_open_or (h : f.Closed ∨ ∃ blocks, f.Open blocks) :
    ∃ f', f.close = some f' ∧ f.Ended f' ∧ f'.Closed := by
  rcases h with h | ⟨blocks, h⟩
  · obtain ⟨f', hclose, hended, hblocks⟩ := close_of_no_fd h.fd
    exact ⟨f', hclose, hended, hended.fd, hblocks⟩
  · obtain ⟨f', hclose, hended, hblocks⟩ := h.close
    exact ⟨f', hclose, hended, hended.fd, hblocks⟩

theorem with_next_none (h : f.m_next = none) : { f with m_next := none } = f := by
  cases f
  simp_all

/-! ## A new file -/

theorem create_currentBlock {fileId : Nat} {p q : LogIndexInfo} :
    (create fileId p q).currentBlock = none := rfl

theorem create_takes {fileId : Nat} {p q : LogIndexInfo} :
    (create fileId p q).Takes cfg e ↔
      (HEAD_SIZE + e.size) % 2 ^ 32 < cfg.m_defaultLogFileSize ∧ 0 < cfg.maxBlockCount := by
  simp only [Takes, create_currentBlock, Option.mem_def, reduceCtorEq, false_and, exists_false,
    or_false]
  simp [create]

theorem create_not_canFinish {fileId : Nat} {p q : LogIndexInfo} :
    ¬ (create fileId p q).CanFinish := by simp [CanFinish, create_currentBlock]

end LogFile

namespace ClusterLog

open LogFile

variable {l l' : ClusterLog} {cfg : LogConfig} {e : LogEntryRpcBase} {f f' : LogFile} {i : Nat}
  {logIndex : LogIndexInfo}

/-- The files of a log as `append` leaves them: ids and first indexes rise, all but the last are
    closed, and the last one is open as long as it is the current one. -/
structure Ok (l : ClusterLog) : Prop where
  current_lt : l.m_currentLogFile < l.files.length
  fileId : ∀ i f, l.files[i]? = some f → f.m_fileId = i + 1
  next : ∀ i f, l.files[i]? = some f →
    f.m_next = if i + 1 < l.files.length then some (i + 1) else none
  begins : ∀ (i j : Nat) (f g : LogFile), i < j → l.files[i]? = some f → l.files[j]? = some g →
    f.m_beginLogIndex < g.m_beginLogIndex
  keys : ∀ p ∈ l.m_files, ∃ f, l.files[p.2]? = some f ∧ f.m_beginLogIndex = p.1
  shut : ∀ i f, l.files[i]? = some f →
    f.Closed ∨ i + 1 = l.files.length ∧ ∃ blocks, f.Open blocks
  opened : l.m_currentLogFile + 1 = l.files.length → ∀ f ∈ l.current, ∃ blocks, f.Open blocks

theorem first_ok : first.Ok := by
  have hfirst : ∀ i f, first.files[i]? = some f → i = 0 ∧ f = LogFile.create 1 ⟨1, 0⟩ ⟨1, 1⟩ := by
    intro i f hf
    obtain ⟨hi, hf⟩ := List.getElem?_eq_some_iff.mp hf
    have hzero : i = 0 := Nat.lt_one_iff.mp hi
    subst hzero
    exact ⟨rfl, hf.symm⟩
  have hopen : (LogFile.create 1 ⟨1, 0⟩ ⟨1, 1⟩).Open [] := by
    refine ⟨create_kept _ _ _, ?_⟩
    intro _ x hx
    simp only [LogFile.create, LogIndexInfo.lt_def, LogIndexInfo.le_def] at hx ⊢
    omega
  constructor
  case current_lt => exact Nat.one_pos
  case fileId =>
    intro i f hf
    obtain ⟨rfl, rfl⟩ := hfirst i f hf
    rfl
  case next =>
    intro i f hf
    obtain ⟨rfl, rfl⟩ := hfirst i f hf
    rfl
  case begins =>
    intro i j f g hlt hf hg
    obtain ⟨rfl, -⟩ := hfirst i f hf
    obtain ⟨rfl, -⟩ := hfirst j g hg
    exact absurd hlt (lt_irrefl _)
  case keys =>
    intro p hp
    rw [List.mem_singleton.mp hp]
    exact ⟨_, rfl, rfl⟩
  case shut =>
    intro i f hf
    obtain ⟨rfl, rfl⟩ := hfirst i f hf
    exact .inr ⟨rfl, [], hopen⟩
  case opened =>
    intro _ f hf
    obtain ⟨-, rfl⟩ := hfirst 0 f hf
    exact ⟨[], hopen⟩

theorem Ok.current_eq (h : l.Ok) : ∃ f, l.current = some f :=
  ⟨_, List.getElem?_eq_getElem h.current_lt⟩

/-! ## `rollback` -/

theorem Ok.find (h : l.Ok) (logIndex : LogIndexInfo) :
    l.find logIndex = some none ∨ l.find logIndex = some (some l.m_currentLogFile) ∨
      ∃ i < l.m_currentLogFile, l.find logIndex = some (some i) := by
  obtain ⟨f, hf⟩ := h.current_eq
  by_cases hempty : l.m_files = []
  · exact .inl (if_pos hempty)
  · simp only [ClusterLog.find, if_neg hempty, hf, Option.bind_eq_bind, Option.bind_some]
    by_cases hle : f.m_beginLogIndex ≤ logIndex
    · simp [hle]
    · rw [if_neg hle]
      cases hlower : l.m_files.find? fun p => logIndex ≤ p.1 with
      | none => exact .inl rfl
      | some p =>
        -- the first key from the index on is the begin of its file
        obtain ⟨g, hg, hbegin⟩ := h.keys p (List.mem_of_find?_eq_some hlower)
        simp only [hg, Option.bind_some]
        by_cases hgt : g.m_beginLogIndex > logIndex
        · exact .inl (if_pos hgt)
        · rw [if_neg hgt]
          refine .inr (.inr ⟨p.2, ?_, rfl⟩)
          rcases Nat.lt_trichotomy p.2 l.m_currentLogFile with hlt | heq | hlt
          · exact hlt
          · rw [heq] at hg
            rw [Option.some.inj (hf.symm.trans hg)] at hle
            exact absurd (not_lt.mp hgt) hle
          · have := h.begins _ _ f g hlt hf hg
            exact absurd (this.le.trans (not_lt.mp hgt)) hle

theorem find_mem (hfind : l.find logIndex = some (some i)) :
    i = l.m_currentLogFile ∨ ∃ k, (k, i) ∈ l.m_files := by
  rw [ClusterLog.find] at hfind
  split at hfind
  · cases hfind
  · obtain ⟨f, -, hfind⟩ := Option.bind_eq_some_iff.mp hfind
    split at hfind
    · cases hfind
      exact .inl rfl
    · split at hfind
      · cases hfind
      · next k j hlower =>
        obtain ⟨g, -, hfind⟩ := Option.bind_eq_some_iff.mp hfind
        split at hfind
        · cases hfind
        · cases hfind
          exact .inr ⟨k, List.mem_of_find?_eq_some hlower⟩

theorem Ok.notFound (h : l.Ok) (logIndex : LogIndexInfo) : ∃ code, l.notFound logIndex = some code := by
  have hreturn : ∀ g : LogFile, ∃ code, (if g.m_beginLogIndex > logIndex then
      some ErrorCode.rollbackTooEarlier else some .logIndexNotFound) = some code := by
    intro g
    split <;> exact ⟨_, rfl⟩
  cases hfiles : l.m_files with
  | nil =>
    obtain ⟨g, hg⟩ := h.current_eq
    rw [current] at hg
    simpa [ClusterLog.notFound, hfiles, hg] using hreturn g
  | cons p rest =>
    obtain ⟨g, hg, -⟩ := h.keys p (by simp [hfiles])
    simpa [ClusterLog.notFound, hfiles, hg] using hreturn g

/-- A rollback to a file that is not the last one makes it the current one, closes the next one and
    fails. -/
structure Moved (l l' : ClusterLog) (i : Nat) (g g' : LogFile) : Prop where
  found : i = l.m_currentLogFile ∨ ∃ k, (k, i) ∈ l.m_files
  lt : i < l.m_currentLogFile ∨ i = l.m_currentLogFile ∧ i + 1 < l.files.length
  next : l.files[i + 1]? = some g
  ended : g.Ended g'
  closed : g'.Closed
  eq : l' = { l with m_currentLogFile := i }.setFile (i + 1) g'

/-- `rollback` goes on in the current file, which is the last one. -/
def RollsBack (l : ClusterLog) (f : LogFile) (logIndex : LogIndexInfo) : Prop :=
  ¬ l.m_commitLogIndex ≥ logIndex ∧ l.find logIndex = some (some l.m_currentLogFile) ∧
    f.m_next = none

/-- The log after a rollback in the current file. -/
def rolledBack (l : ClusterLog) (f' : LogFile) : ClusterLog :=
  { l.setFile l.m_currentLogFile { f' with m_next := none } with
    m_files := l.m_files.filter fun p => p.1 ≠ f'.m_logIndex }

theorem Ok.next_file (h : l.Ok) (hf : l.files[i]? = some f) (hi : i + 1 < l.files.length) :
    ∃ g g', f.m_next = some (i + 1) ∧ l.files[i + 1]? = some g ∧ g.close = some g' ∧ g.Ended g' ∧
      g'.Closed := by
  have hnext := h.next i f hf
  rw [if_pos hi] at hnext
  have hg := List.getElem?_eq_getElem hi
  have hshut : (l.files[i + 1]).Closed ∨ ∃ blocks, (l.files[i + 1]).Open blocks :=
    (h.shut _ _ hg).imp_right And.right
  obtain ⟨g', hclose, hended, hclosed⟩ := close_of_open_or hshut
  exact ⟨_, g', hnext, hg, hclose, hended, hclosed⟩

theorem Ok.rollback_moves (h : l.Ok) (hcommit : ¬ l.m_commitLogIndex ≥ logIndex)
    (hfind : l.find logIndex = some (some i)) (hf : l.files[i]? = some f)
    (hi : i + 1 < l.files.length) (hle : i ≤ l.m_currentLogFile) :
    ∃ l' g g', l.rollback logIndex = some (some .ioError, l') ∧ l.Moved l' i g g' := by
  obtain ⟨g, g', hnext, hg, hclose, hended, hclosed⟩ := h.next_file hf hi
  have hcurrent : { l with m_currentLogFile := i }.current = some f := hf
  refine ⟨_, g, g', ?_, find_mem hfind, ?_, hg, hended, hclosed, rfl⟩
  · simp [ClusterLog.rollback, hcommit, hfind, deleteFiles, hcurrent, hnext, hg, hclose]
  · exact hle.lt_or_eq.imp_right fun heq => ⟨heq, hi⟩

theorem Ok.rollback_fails (h : l.Ok) (hf : l.current = some f) (hnot : ¬ l.RollsBack f logIndex) :
    ∃ code l', l.rollback logIndex = some (some code, l') ∧
      (l' = l ∨ ∃ i g g', l.Moved l' i g g') := by
  by_cases hcommit : l.m_commitLogIndex ≥ logIndex
  · exact ⟨_, l, if_pos hcommit, .inl rfl⟩
  · rcases h.find logIndex with hfind | hfind | ⟨i, hi, hfind⟩
    · obtain ⟨code, hcode⟩ := h.notFound logIndex
      exact ⟨code, l, by simp [ClusterLog.rollback, hcommit, hfind, hcode], .inl rfl⟩
    · -- the current file is not the last one
      have hlt : l.m_currentLogFile + 1 < l.files.length := by
        by_contra hlast
        have hnext := h.next _ f hf
        rw [if_neg hlast] at hnext
        exact hnot ⟨hcommit, hfind, hnext⟩
      obtain ⟨l', g, g', hrollback, hmoved⟩ := h.rollback_moves hcommit hfind hf hlt le_rfl
      exact ⟨_, l', hrollback, .inr ⟨_, g, g', hmoved⟩⟩
    · have hlt := hi.trans h.current_lt
      obtain ⟨l', g, g', hrollback, hmoved⟩ := h.rollback_moves hcommit hfind
        (List.getElem?_eq_getElem hlt) (Nat.lt_of_le_of_lt hi h.current_lt) hi.le
      exact ⟨_, l', hrollback, .inr ⟨_, g, g', hmoved⟩⟩

private theorem rollback_of_rollsBack (hf : l.current = some f) (h : l.RollsBack f logIndex) :
    l.rollback logIndex = (f.rollback logIndex).map fun p =>
      match p with
      | (some code, f') => (some code, l.setFile l.m_currentLogFile f')
      | (none, f') => (none, l.rolledBack f') := by
  obtain ⟨hcommit, hfind, hnext⟩ := h
  have hcurrent : { l with m_currentLogFile := l.m_currentLogFile }.current = some f := hf
  simp only [ClusterLog.rollback, if_neg hcommit, hfind, deleteFiles, hcurrent, hnext,
    Option.bind_eq_bind, Option.bind_some, Option.pure_def]
  cases f.rollback logIndex with
  | none => rfl
  | some p =>
    obtain ⟨_ | code, f'⟩ := p
    · rfl
    · rfl

/-! ## `rotate` -/

/-- The log after `rotate`, with its current file closed. -/
def rotated (l : ClusterLog) (f f' : LogFile) (logIndex : LogIndexInfo) : ClusterLog :=
  { l with
    files := l.files.set l.m_currentLogFile f' ++
      [LogFile.create (f.m_fileId + 1) f.m_logIndex logIndex]
    m_files := SortedEntries.insert logIndex l.files.length l.m_files
    m_currentLogFile := l.files.length }

theorem rotated_current : (l.rotated f f' logIndex).current =
    some (LogFile.create (f.m_fileId + 1) f.m_logIndex logIndex) := by
  simp [rotated, current]

theorem Ok.last_of_canFinish (h : l.Ok) (hf : l.current = some f) (hfinish : f.CanFinish) :
    l.m_currentLogFile + 1 = l.files.length := by
  rcases h.shut _ f hf with hclosed | ⟨hlast, -⟩
  · exact absurd hfinish hclosed.not_canFinish
  · exact hlast

/-- What `rotate` makes of a file: it is finished, gets its successor and is closed. -/
def FinishesTo (f : LogFile) (next : Nat) (f' : LogFile) : Prop :=
  ∃ f₁, f.finish = some (.ok f₁) ∧ f' = LogFile.closedFile { f₁ with m_next := some next }

/-- `rotate` finishes and closes the last file and links it to a new one. -/
theorem Ok.rotate (h : l.Ok) (hf : l.current = some f) (hfinish : f.CanFinish)
    (logIndex : LogIndexInfo) : ∃ f', l.rotate f logIndex = some (none, l.rotated f f' logIndex) ∧
      Ended { f with m_next := some l.files.length } f' ∧ f'.Closed ∧
      FinishesTo f l.files.length f' := by
  have hlast := h.last_of_canFinish hf hfinish
  obtain ⟨blocks, hopen⟩ := h.opened hlast f hf
  obtain ⟨f₁, hfinished, hended, -⟩ := hopen.finish hfinish
  have hnofd : ({ f₁ with m_next := some l.files.length } : LogFile).m_fd = none := hended.fd
  obtain ⟨f', hclose, hended', hblocks⟩ := close_of_no_fd hnofd
  have hclosed : FinishesTo f l.files.length f' :=
    ⟨f₁, hfinished, Option.some.inj (hclose.symm.trans (close_eq_of_no_fd hnofd))⟩
  have hid : f.m_fileId = l.m_currentLogFile + 1 := h.fileId _ f hf
  have hcurrent : (l.setFile l.m_currentLogFile f₁).current = some f₁ := by
    simp [current, setFile, h.current_lt]
  -- the ids of the files end with that of the current one
  have hnew : (l.files.set l.m_currentLogFile f₁).any (fun g => g.m_fileId = f₁.m_fileId + 1) =
      false := by
    rw [List.any_eq_false]
    intro g hg
    rw [hended.frame.fileId, hid, decide_eq_true_iff]
    rcases List.mem_or_eq_of_mem_set hg with hg | rfl
    · obtain ⟨i, hi⟩ := List.mem_iff_getElem?.mp hg
      have := (List.getElem?_eq_some_iff.mp hi).1
      rw [h.fileId i g hi]
      omega
    · rw [hended.frame.fileId, hid]
      omega
  refine ⟨f', ?_, ⟨hended'.fd, ?_, ⟨?_, ?_, ?_⟩, ?_⟩, ⟨hended'.fd, hblocks⟩, hclosed⟩
  · simp only [ClusterLog.rotate, hfinished, Option.bind_eq_bind, Option.bind_some, createNewFile,
      hcurrent]
    simp only [setFile, hnew, Bool.false_eq_true, if_false, List.length_set, hclose,
      Option.bind_some, List.set_set]
    rw [hended.logIndex, hended.frame.fileId]
    rfl
  · exact hended'.logIndex.trans hended.logIndex
  · exact hended'.frame.fileId.trans hended.frame.fileId
  · exact hended'.frame.begin_eq.trans hended.frame.begin_eq
  · exact hended'.frame.next
  · exact hended.stream.trans hended'.stream

/-! ## One entry into `append` -/

/-- One entry into `append`: what it returns, or the log with which it is entered again. -/
def appendStep (cfg : LogConfig) (e : LogEntryRpcBase) (l : ClusterLog) :
    Option ((Option ErrorCode × ClusterLog) ⊕ ClusterLog) := do
  let f ← l.current
  match ← f.append cfg e with
  | .ok f => return .inl ((l.setFile l.m_currentLogFile f).accept e)
  | .error .full =>
    match ← l.rotate f e.logIndex with
    | (some code, l) => return .inl (some code, l)
    | (none, l) => return .inr l
  | .error .rollback =>
    match ← l.rollback e.logIndex with
    | (some code, l) => return .inl (some code, l)
    | (none, l) => return .inr l
  | .error code => return .inl (some code, l)

theorem append_eq_run (fuel : Nat) (l : ClusterLog) :
    append cfg fuel l e = Retry.run (appendStep cfg e) fuel l := by
  induction fuel generalizing l with
  | zero => rfl
  | succ fuel ih =>
    simp only [append, Retry.run, appendStep]
    cases l.current with
    | none => rfl
    | some f =>
      simp only [Option.bind_eq_bind, Option.bind_some]
      cases f.append cfg e with
      | none => rfl
      | some status =>
        cases status with
        | ok _ => rfl
        | error code =>
          cases code with
          | full =>
            cases l.rotate f e.logIndex with
            | none => rfl
            | some p =>
              obtain ⟨_ | code, l⟩ := p
              · exact ih l
              · rfl
          | rollback =>
            cases l.rollback e.logIndex with
            | none => rfl
            | some p =>
              obtain ⟨_ | code, l⟩ := p
              · exact ih l
              · rfl
          | _ => rfl

theorem appendStep_of_lt (hf : l.current = some f) (hlt : f.m_logIndex < e.prevRecordLogIndex) :
    appendStep cfg e l = some (.inl (some .prevNotMatch, l)) := by
  simp only [appendStep, hf, Option.bind_eq_bind, Option.bind_some, append_of_ne hlt.ne, if_pos hlt,
    Option.pure_def]

theorem appendStep_of_gt (cfg : LogConfig) (hf : l.current = some f)
    (hgt : e.prevRecordLogIndex < f.m_logIndex) :
    appendStep cfg e l = (l.rollback e.logIndex).map fun p =>
      match p with
      | (some code, l) => .inl (some code, l)
      | (none, l) => .inr l := by
  simp only [appendStep, hf, Option.bind_eq_bind, Option.bind_some, append_of_ne hgt.ne',
    if_neg (not_lt.mpr hgt.le)]
  cases l.rollback e.logIndex with
  | none => rfl
  | some p =>
    obtain ⟨_ | code, l⟩ := p
    · rfl
    · rfl

theorem appendStep_of_ok (hf : l.current = some f) (happend : f.append cfg e = some (.ok f')) :
    appendStep cfg e l = some (.inl ((l.setFile l.m_currentLogFile f').accept e)) := by
  simp only [appendStep, hf, Option.bind_eq_bind, Option.bind_some, happend, Option.pure_def]

theorem appendStep_of_full (hf : l.current = some f)
    (hprev : f.m_logIndex = e.prevRecordLogIndex) (hfull : f.IsFull cfg e) :
    appendStep cfg e l = (l.rotate f e.logIndex).map fun p =>
      match p with
      | (some code, l) => .inl (some code, l)
      | (none, l) => .inr l := by
  simp only [appendStep, hf, Option.bind_eq_bind, Option.bind_some, append_of_full hprev hfull]
  cases l.rotate f e.logIndex with
  | none => rfl
  | some p =>
    obtain ⟨_ | code, l⟩ := p
    · rfl
    · rfl

theorem appendStep_of_neither (hf : l.current = some f)
    (hprev : f.m_logIndex = e.prevRecordLogIndex) (htakes : ¬ f.Takes cfg e)
    (hfull : ¬ f.IsFull cfg e) : appendStep cfg e l = none := by
  simp only [appendStep, hf, Option.bind_eq_bind, Option.bind_some,
    append_of_neither hprev htakes hfull, Option.bind_none]

theorem rotate_of_not (h : ¬ f.CanFinish) : l.rotate f logIndex = none := by
  simp only [ClusterLog.rotate, finish_of_not h, Option.bind_eq_bind, Option.bind_none]

/-! ## Rolling back again and again -/

/-- A log in which `append` of an entry rolls back again and again. -/
structure Loops (l : ClusterLog) (e : LogEntryRpcBase) (f : LogFile) : Prop where
  current : l.current = some f
  behind : e.prevRecordLogIndex < f.m_logIndex
  rollsBack : l.RollsBack f e.logIndex
  begin_le : f.m_beginLogIndex ≤ e.logIndex
  laid : ∃ blocks, f.Laid blocks

theorem find_of_le (hf : l.current = some f) (hfiles : l.m_files ≠ [])
    (hle : f.m_beginLogIndex ≤ logIndex) : l.find logIndex = some (some l.m_currentLogFile) := by
  simp [ClusterLog.find, hfiles, hf, hle]

theorem files_ne_nil (hfind : l.find logIndex = some (some i)) : l.m_files ≠ [] := by
  intro hnil
  simp [ClusterLog.find, hnil] at hfind

theorem begin_le_of_find (hf : l.current = some f)
    (hfind : l.find logIndex = some (some l.m_currentLogFile)) : f.m_beginLogIndex ≤ logIndex := by
  by_contra hlt
  have hfiles := files_ne_nil hfind
  simp only [ClusterLog.find, if_neg hfiles, hf, Option.bind_eq_bind, Option.bind_some,
    if_neg hlt] at hfind
  cases hlower : l.m_files.find? fun p => logIndex ≤ p.1 with
  | none => simp [hlower] at hfind
  | some p =>
    simp only [hlower] at hfind
    cases hp : l.files[p.2]? with
    | none => simp [hp] at hfind
    | some g =>
      simp only [hp, Option.bind_some] at hfind
      split at hfind
      · cases hfind
      · next hgt =>
        -- the file that was found is the current one
        have hi : p.2 = l.m_currentLogFile := by simpa using hfind
        rw [hi] at hp
        rw [Option.some.inj (hf.symm.trans hp)] at hlt
        exact hlt (not_lt.mp hgt)

theorem rolledBack_current (f' : LogFile) (hlt : l.m_currentLogFile < l.files.length) :
    (l.rolledBack f').current = some { f' with m_next := none } := by
  simp [current, rolledBack, setFile, hlt]

theorem Loops.again (h : l.Loops e f) (hframe : f.RolledBack f')
    (hkeys : ∃ p ∈ l.m_files, p.1 ≠ f.m_logIndex) :
    (l.rolledBack f').Loops e { f' with m_next := none } ∧
      ∀ p ∈ (l.rolledBack f').m_files, p.1 ≠ f'.m_logIndex := by
  have hlt : l.m_currentLogFile < l.files.length := (List.getElem?_eq_some_iff.mp h.current).1
  have hfiles : (l.rolledBack f').m_files ≠ [] := by
    obtain ⟨p, hp, hne⟩ := hkeys
    apply List.ne_nil_of_mem (a := p)
    simp [rolledBack, hp, hframe.logIndex, hne]
  have hle : f'.m_beginLogIndex ≤ e.logIndex := hframe.frame.begin_eq.trans_le h.begin_le
  constructor
  · constructor
    case current => exact rolledBack_current f' hlt
    case behind => exact h.behind.trans_eq hframe.logIndex.symm
    case rollsBack => exact ⟨h.rollsBack.1, find_of_le (rolledBack_current f' hlt) hfiles hle, rfl⟩
    case begin_le => exact hle
    case laid =>
      obtain ⟨blocks, hlaid⟩ := hframe.laid
      exact ⟨blocks, hlaid.1, hlaid.2, hlaid.3, hlaid.4, hlaid.5, hlaid.6, hlaid.7, hlaid.8⟩
  · intro p hp
    simpa using (List.mem_filter.mp hp).2

theorem Loops.step (cfg : LogConfig) (h : l.Loops e f) :
    (f.cutPlace e.logIndex = none ∧ appendStep cfg e l = none) ∨
      ∃ f', f.cutPlace e.logIndex ≠ none ∧ f.RolledBack f' ∧
        f.rollback e.logIndex = some (none, f') ∧
        appendStep cfg e l = some (.inr (l.rolledBack f')) := by
  obtain ⟨blocks, hlaid⟩ := h.laid
  have hstep := appendStep_of_gt cfg h.current h.behind
  rw [rollback_of_rollsBack h.current h.rollsBack] at hstep
  rcases hlaid.rollback e.logIndex with ⟨hplace, hnone⟩ | ⟨hplace, f', hrollback, hrolled⟩
  · left
    rw [hnone] at hstep
    exact ⟨hplace, hstep⟩
  · right
    rw [hrollback] at hstep
    exact ⟨f', hplace, hrolled, hrollback, hstep⟩

theorem Loops.not_ends (h : l.Loops e f) (hkeys : ∃ p ∈ l.m_files, p.1 ≠ f.m_logIndex) :
    ¬ Retry.Ends (appendStep cfg e) l := by
  apply Retry.not_ends fun l => ∃ f, l.Loops e f ∧ ∃ p ∈ l.m_files, p.1 ≠ f.m_logIndex
  · rintro l ⟨f, h, hkeys⟩
    rcases h.step cfg with ⟨-, hstuck⟩ | ⟨f', -, hrolled, -, hretry⟩
    · exact .inl hstuck
    · obtain ⟨hloops, hall⟩ := h.again hrolled hkeys
      have hfiles := files_ne_nil hloops.rollsBack.2.1
      obtain ⟨p, hp⟩ := List.exists_mem_of_ne_nil _ hfiles
      exact .inr ⟨_, hretry, _, hloops, p, hp, hall p hp⟩
  · exact ⟨f, h, hkeys⟩

theorem Loops.leaves (cfg : LogConfig) (h : l.Loops e f) (hframe : f.RolledBack f')
    (hkeys : ∀ p ∈ l.m_files, p.1 = f.m_logIndex) :
    ∃ code, appendStep cfg e (l.rolledBack f') = some (.inl (some code, l.rolledBack f')) := by
  have hlt : l.m_currentLogFile < l.files.length := (List.getElem?_eq_some_iff.mp h.current).1
  have hcurrent := rolledBack_current f' hlt
  have hcommit : ¬ (l.rolledBack f').m_commitLogIndex ≥ e.logIndex := h.rollsBack.1
  have hfiles : (l.rolledBack f').m_files = [] := by
    apply List.filter_eq_nil_iff.mpr
    intro p hp
    simp [hkeys p hp, hframe.logIndex]
  have hfind : (l.rolledBack f').find e.logIndex = some none := if_pos hfiles
  let code : ErrorCode :=
    if f'.m_beginLogIndex > e.logIndex then .rollbackTooEarlier else .logIndexNotFound
  have hnot : (l.rolledBack f').notFound e.logIndex = some code := by
    have hfile : (l.rolledBack f').files[(l.rolledBack f').m_currentLogFile]? =
        some { f' with m_next := none } := hcurrent
    simp only [ClusterLog.notFound, hfiles, Option.bind_eq_bind]
    rw [hfile, Option.bind_some]
    simp only [code]
    split <;> rfl
  refine ⟨code, ?_⟩
  rw [appendStep_of_gt cfg hcurrent (h.behind.trans_eq hframe.logIndex.symm)]
  simp only [ClusterLog.rollback, if_neg hcommit, hfind, hnot, Option.bind_eq_bind,
    Option.bind_some, Option.pure_def, Option.map_some]

end ClusterLog

end DBStream.Native.CLUSTER
