import DBStream.Native.ClusterLogIterator
import DBStream.Spec.ClusterLogCommits
import Mathlib.Data.List.TakeWhile

/-!
# Starting the cluster log again

`createNewFile` and `create` name the files `prefix.id.log`, and `init` takes only names that end
with the id.  It does not find any file of the log, and cannot make the first one anew.
-/

namespace DBStream.Native.CLUSTER.ClusterLog

variable {l l' : ClusterLog} {cfg : LogConfig} {e : LogEntryRpcBase} {f f' : LogFile}
  {logFileNamePrefix : List Char}

/-! ## The names that `init` finds -/

theorem parseName_fileName (logFileNamePrefix : List Char) (fileId : Nat) (rest : List Char) :
    parseName logFileNamePrefix (fileName logFileNamePrefix fileId ++ rest) = none := by
  have hname : fileName logFileNamePrefix fileId ++ rest =
      logFileNamePrefix ++ '.' :: (Nat.toDigits 10 fileId ++ '.' :: ['l', 'o', 'g'] ++ rest) := by
    simp [fileName]
  have hdot : ¬ (Nat.toDigits 10 fileId ++ '.' :: ['l', 'o', 'g'] ++ rest).dropWhile isDigit = [] := by
    rw [List.dropWhile_eq_nil_iff]
    intro hall
    exact absurd (hall '.' (by simp)) (by decide)
  rw [hname, parseName, List.take_left, List.drop_left, if_neg (not_not_intro rfl)]
  exact if_neg hdot

private theorem findFiles_eq_nil {dir : List (List Char × List UInt8)}
    (h : ∀ p ∈ dir, parseName logFileNamePrefix p.1 = none) : findFiles logFileNamePrefix dir = [] := by
  induction dir with
  | nil => rfl
  | cons p dir ih =>
    unfold findFiles
    rw [List.foldl_cons, h p (List.mem_cons_self ..)]
    exact ih fun q hq => h q (List.mem_cons_of_mem _ hq)

private theorem findFiles_directory (files : List LogFile) :
    findFiles logFileNamePrefix (directory logFileNamePrefix files) = [] := by
  apply findFiles_eq_nil
  intro p hp
  rw [directory, List.mem_flatMap] at hp
  obtain ⟨f, -, hp⟩ := hp
  rcases List.mem_cons.mp hp with rfl | hp
  · have hnone := parseName_fileName logFileNamePrefix f.m_fileId []
    rwa [List.append_nil] at hnone
  · obtain ⟨d, -, rfl⟩ := List.mem_map.mp hp
    exact parseName_fileName _ _ _

/-! ## A log keeps its files -/

theorem length_setFile (i : Nat) (f : LogFile) : (l.setFile i f).files.length = l.files.length :=
  List.length_set

variable {r : Option ErrorCode × ClusterLog}

private theorem deleteFiles_length (h : l.deleteFiles = some r) :
    r.2.files.length = l.files.length := by
  simp only [deleteFiles, Option.bind_eq_bind, Option.bind_eq_some_iff] at h
  obtain ⟨f, -, h⟩ := h
  split at h
  · cases h
    rfl
  · obtain ⟨g, -, h⟩ := Option.bind_eq_some_iff.mp h
    obtain ⟨g', -, h⟩ := Option.bind_eq_some_iff.mp h
    cases h
    exact length_setFile _ _

variable {logIndex : LogIndexInfo}

theorem rollback_length
    (h : l.rollback logIndex = some r) : r.2.files.length = l.files.length := by
  rw [rollback] at h
  split at h
  · cases h
    rfl
  · obtain ⟨found, -, h⟩ := Option.bind_eq_some_iff.mp h
    cases found with
    | none =>
      obtain ⟨code, -, h⟩ := Option.bind_eq_some_iff.mp h
      cases h
      rfl
    | some i =>
      obtain ⟨⟨code, l₁⟩, hdelete, h⟩ := Option.bind_eq_some_iff.mp h
      have hlength := deleteFiles_length hdelete
      cases code with
      | some code =>
        cases h
        exact hlength
      | none =>
        obtain ⟨f, -, h⟩ := Option.bind_eq_some_iff.mp h
        obtain ⟨⟨code, f'⟩, -, h⟩ := Option.bind_eq_some_iff.mp h
        cases code <;> cases h <;> exact (length_setFile _ _).trans hlength

theorem createNewFile_length
    (h : l.createNewFile logIndex = some r) : l.files.length ≤ r.2.files.length := by
  obtain ⟨f, -, h⟩ := Option.bind_eq_some_iff.mp h
  dsimp only at h
  split at h
  · cases h
    exact le_rfl
  · obtain ⟨f', -, h⟩ := Option.bind_eq_some_iff.mp h
    cases h
    simp

theorem rotate_length
    (h : l.rotate f logIndex = some r) : l.files.length ≤ r.2.files.length := by
  obtain ⟨s, -, h⟩ := Option.bind_eq_some_iff.mp h
  cases s with
  | error code =>
    cases h
    exact le_rfl
  | ok f => exact (length_setFile _ _).ge.trans (createNewFile_length h)

theorem appendStep_length {r : (Option ErrorCode × ClusterLog) ⊕ ClusterLog}
    (h : appendStep cfg e l = some r) : l.files.length ≤ (r.elim (·.2) id).files.length := by
  obtain ⟨f, -, h⟩ := Option.bind_eq_some_iff.mp h
  obtain ⟨s, -, h⟩ := Option.bind_eq_some_iff.mp h
  split at h
  · cases h
    rw [Sum.elim_inl, (accept_files _ e).1, length_setFile]
  · obtain ⟨⟨code, l'⟩, hrotate, h⟩ := Option.bind_eq_some_iff.mp h
    have hle := rotate_length hrotate
    cases code <;> cases h <;> exact hle
  · obtain ⟨⟨code, l'⟩, hrollback, h⟩ := Option.bind_eq_some_iff.mp h
    have hle := (rollback_length hrollback).ge
    cases code <;> cases h <;> exact hle
  · cases h
    exact le_rfl

theorem append_length {fuel : Nat}
    (h : append cfg fuel l e = some r) : l.files.length ≤ r.2.files.length := by
  rw [append_eq_run] at h
  exact Retry.run_of_step (fun l₁ => l.files.length ≤ l₁.files.length)
    (fun r => l.files.length ≤ r.2.files.length)
    (fun _ _ hle hstep => hle.trans (appendStep_length hstep))
    (fun _ _ hle hstep => hle.trans (appendStep_length hstep)) le_rfl h

theorem closeFiles_length {files files' : List LogFile} {m_files : List (LogIndexInfo × Nat)}
    (h : closeFiles files m_files = some files') : files'.length = files.length := by
  induction m_files generalizing files with
  | nil =>
    cases h
    rfl
  | cons p rest ih =>
    obtain ⟨f, hf, f', hf', hrest⟩ : ∃ f, files[p.2]? = some f ∧ ∃ f', f.close = some f' ∧
        closeFiles (files.set p.2 f') rest = some files' := by
      simpa [closeFiles, Option.bind_eq_some_iff] using h
    rw [ih hrest, List.length_set]

theorem close_length {files : List LogFile} (h : l.close = some files) :
    files.length = l.files.length := by
  obtain ⟨f, -, h⟩ := Option.bind_eq_some_iff.mp h
  obtain ⟨s, -, h⟩ := Option.bind_eq_some_iff.mp h
  have hclosed : ∀ g : LogFile, (do
      let f ← g.close
      closeFiles (l.files.set l.m_currentLogFile f) l.m_files) = some files →
      files.length = l.files.length := by
    intro g hg
    obtain ⟨g', -, hg⟩ := Option.bind_eq_some_iff.mp hg
    rw [closeFiles_length hg, List.length_set]
  cases s with
  | error code => exact hclosed f h
  | ok f => exact hclosed f h

/-! ## Restarting -/

/-- The logs that appends make from one with its first file, and the entries they have accepted. -/
inductive Accepts (cfg : LogConfig) : ClusterLog → List LogEntryRpcBase → Prop
  | first : Accepts cfg first []
  | append {l : ClusterLog} {accepted : List LogEntryRpcBase} {e : LogEntryRpcBase} {fuel : Nat}
      {r : Option ErrorCode × ClusterLog} (h : Accepts cfg l accepted)
      (happend : append cfg fuel l e = some r) :
      Accepts cfg r.2 (if r.1 = none then accepted ++ [e] else accepted)

theorem Accepts.files_ne_nil {accepted : List LogEntryRpcBase} (h : Accepts cfg l accepted) :
    l.files ≠ [] := by
  induction h with
  | first => simp [ClusterLog.first]
  | append _ happend ih =>
    have hle := append_length happend
    rw [← List.length_pos_iff] at ih ⊢
    exact ih.trans_le hle

/-- A log that was closed and is started again has its files by their ids, and its entries. -/
structure Survives (cfg : LogConfig) (logFileNamePrefix : List Char) (l : ClusterLog)
    (accepted : List LogEntryRpcBase) (lastCommited : LogIndexInfo) (files : List LogFile) : Prop where
  close : l.close = some files
  found : findFiles logFileNamePrefix (directory logFileNamePrefix files) =
    files.map fun f => (f.m_fileId, fileName logFileNamePrefix f.m_fileId)
  entries : ∃ junk fuel l', init cfg logFileNamePrefix (directory logFileNamePrefix files)
    lastCommited junk fuel = some (.ok l') ∧
      l'.readBack cfg junk fuel = some (.ok (accepted.map LogEntryRpcBase.bytes))

/-- No log survives a restart: `init` finds none of its files. -/
theorem not_survives {accepted : List LogEntryRpcBase} (h : Accepts cfg l accepted)
    (logFileNamePrefix : List Char) (lastCommited : LogIndexInfo) (files : List LogFile) :
    ¬ Survives cfg logFileNamePrefix l accepted lastCommited files := by
  intro hsurvives
  have hfound := hsurvives.found
  rw [findFiles_directory, eq_comm, List.map_eq_nil_iff] at hfound
  have hlength := close_length hsurvives.close
  rw [hfound, List.length_nil, eq_comm, List.length_eq_zero_iff] at hlength
  exact h.files_ne_nil hlength

theorem Accepts.appendAll {accepted es : List LogEntryRpcBase} {fuel : Nat} {l' : ClusterLog}
    (h : Accepts cfg l accepted) (happend : ClusterLog.appendAll cfg fuel l es = some l') :
    Accepts cfg l' (accepted ++ es) := by
  induction es generalizing l accepted with
  | nil =>
    cases happend
    rwa [List.append_nil]
  | cons e es ih =>
    obtain ⟨⟨code, l₁⟩, hstep, happend⟩ := Option.bind_eq_some_iff.mp happend
    cases code with
    | some code => cases happend
    | none =>
      have hrun := ih (h.append hstep) happend
      rwa [if_pos rfl, List.append_assoc, List.singleton_append] at hrun

/-- Seven entries in two files of two blocks. -/
theorem not_survives_seven : ∃ l files,
    Accepts ⟨100, 300⟩ l ((List.range 7).map (entry · 0)) ∧ l.close = some files ∧
      files.length = 2 ∧
      ¬ Survives ⟨100, 300⟩ ['l', 'o', 'g'] l ((List.range 7).map (entry · 0)) ⟨0, 0⟩ files := by
  obtain ⟨l, files, happend, hclose, hlength⟩ : ∃ l files,
      ClusterLog.appendAll ⟨100, 300⟩ 2 first ((List.range 7).map (entry · 0)) = some l ∧
        l.close = some files ∧ files.length = 2 := ⟨_, _, rfl, rfl, rfl⟩
  have haccepts := Accepts.first.appendAll happend
  exact ⟨l, files, haccepts, hclose, hlength, not_survives haccepts _ _ _⟩

/-- The entry of a log is stored and the log closed, but `init` does not get it back. -/
theorem restart_fails : ∃ l files,
    append .new 1 first (entry 0 0) = some (none, l) ∧ l.close = some files ∧
      ∀ (junk : Nat → UInt8) (fuel : Nat),
        init .new ['l', 'o', 'g'] (directory ['l', 'o', 'g'] files) ⟨0, 0⟩ junk fuel =
          some (.error .ioError) := by
  refine ⟨_, _, rfl, rfl, fun junk fuel => ?_⟩
  rfl

end DBStream.Native.CLUSTER.ClusterLog
