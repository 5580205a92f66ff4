import DBStream.Spec.ClusterLogRuns

/-!
# When `append` of the cluster log returns

`append` calls itself after a rollback, but a rollback leaves `m_logIndex` of the file as it is.  The
next mismatch is the same one, unless `m_files` has become empty: then the second rollback fails.
-/

namespace DBStream.Native.CLUSTER.ClusterLog

open LogFile

variable {l l' : ClusterLog} {cfg : LogConfig} {e : LogEntryRpcBase} {f f' : LogFile}

/-! ## What an `append` that returns has done -/

/-- A rollback that empties `m_files`. -/
structure Emptied (l : ClusterLog) (e : LogEntryRpcBase) (f f' : LogFile) : Prop
    extends l.Loops e f where
  keys : ∀ p ∈ l.m_files, p.1 = f.m_logIndex
  rollback : f.rollback e.logIndex = some (none, f')

/-- What an `append` that returns does to a log. -/
inductive Outcome (l : ClusterLog) (e : LogEntryRpcBase) : Option ErrorCode × ClusterLog → Prop
  | refused (code : ErrorCode) : Outcome l e (some code, l)
  | moved (code : ErrorCode) {l' : ClusterLog} {i : Nat} {g g' : LogFile} (h : l.Moved l' i g g') :
      Outcome l e (some code, l')
  | stored {f f' : LogFile} (hf : l.current = some f) (hprev : f.m_logIndex = e.prevRecordLogIndex)
      (hlast : l.m_currentLogFile + 1 = l.files.length) (h : f.Stores f' e) :
      Outcome l e ((l.setFile l.m_currentLogFile f').accept e)
  | rotated {f f' g : LogFile} (hf : l.current = some f)
      (hprev : f.m_logIndex = e.prevRecordLogIndex) (hfinish : f.CanFinish)
      (hended : Ended { f with m_next := some l.files.length } f') (hclosed : f'.Closed)
      (h : (LogFile.create (f.m_fileId + 1) f.m_logIndex e.logIndex).Stores g e) :
      Outcome l e (((l.rotated f f' e.logIndex).setFile l.files.length g).accept e)
  | emptied (code : ErrorCode) {f f' : LogFile} (h : l.Emptied e f f') :
      Outcome l e (some code, l.rolledBack f')

theorem Ok.append_of_takes (h : l.Ok) (hf : l.current = some f)
    (hprev : f.m_logIndex = e.prevRecordLogIndex) (htakes : f.Takes cfg e) :
    l.m_currentLogFile + 1 = l.files.length ∧ ∃ f', f.append cfg e = some (.ok f') ∧
      (e.Proper → cfg.m_defaultLogFileSize ≤ 2 ^ 31 → f.Stores f' e) := by
  rcases h.shut _ f hf with hclosed | ⟨hlast, blocks, hopen⟩
  · exact absurd htakes hclosed.not_takes
  · obtain ⟨f', happend, hstores⟩ := hopen.append_of_takes hprev htakes
    refine ⟨hlast, f', happend, fun hproper hcfg => hstores hproper hcfg ?_⟩
    apply hopen.begin_le_of_lt
    rw [hprev]
    exact hproper.prev_lt

theorem appendStep_rotated (l : ClusterLog) (f' : LogFile)
    (hprev : f.m_logIndex = e.prevRecordLogIndex)
    (hsize : (HEAD_SIZE + e.size) % 2 ^ 32 < cfg.m_defaultLogFileSize)
    (hmax : 0 < cfg.maxBlockCount) : ∃ g,
      appendStep cfg e (l.rotated f f' e.logIndex) =
        some (.inl (((l.rotated f f' e.logIndex).setFile l.files.length g).accept e)) ∧
      (LogFile.create (f.m_fileId + 1) f.m_logIndex e.logIndex).append cfg e = some (.ok g) ∧
      (e.Proper → cfg.m_defaultLogFileSize ≤ 2 ^ 31 →
        (LogFile.create (f.m_fileId + 1) f.m_logIndex e.logIndex).Stores g e) := by
  obtain ⟨g, happend, hstores⟩ :=
    (create_kept (f.m_fileId + 1) f.m_logIndex e.logIndex).append_of_takes hprev
      (create_takes.mpr ⟨hsize, hmax⟩)
  exact ⟨g, appendStep_of_ok rotated_current happend, happend,
    fun hproper hcfg => hstores hproper hcfg le_rfl⟩

theorem appendStep_rotated_none (l : ClusterLog) (f' : LogFile)
    (hprev : f.m_logIndex = e.prevRecordLogIndex)
    (hnot : ¬ ((HEAD_SIZE + e.size) % 2 ^ 32 < cfg.m_defaultLogFileSize ∧ 0 < cfg.maxBlockCount)) :
    appendStep cfg e (l.rotated f f' e.logIndex) = none := by
  by_cases hfull : (LogFile.create (f.m_fileId + 1) f.m_logIndex e.logIndex).IsFull cfg e
  · rw [appendStep_of_full rotated_current hprev hfull, rotate_of_not create_not_canFinish]
    rfl
  · exact appendStep_of_neither rotated_current hprev (create_takes.not.mpr hnot) hfull

theorem Ok.loops (h : l.Ok) (hf : l.current = some f) (hgt : e.prevRecordLogIndex < f.m_logIndex)
    (hback : l.RollsBack f e.logIndex) : l.Loops e f := by
  have hlast : l.m_currentLogFile + 1 = l.files.length := by
    have hlt := h.current_lt
    have hif := h.next _ f hf
    by_contra hne
    rw [if_pos (by omega), hback.2.2] at hif
    cases hif
  obtain ⟨blocks, hopen⟩ := h.opened hlast f hf
  exact ⟨hf, hgt, hback, begin_le_of_find hf hback.2.1, blocks, hopen.toLaid⟩

theorem Ok.outcome_of_eq (h : l.Ok) (hproper : e.Proper) (hcfg : cfg.m_defaultLogFileSize ≤ 2 ^ 31)
    (hf : l.current = some f) (hprev : f.m_logIndex = e.prevRecordLogIndex) {fuel : Nat}
    {r : Option ErrorCode × ClusterLog} (happend : append cfg fuel l e = some r) :
    (∃ f', l.m_currentLogFile + 1 = l.files.length ∧ f.append cfg e = some (.ok f') ∧ f.Stores f' e ∧
      r = (l.setFile l.m_currentLogFile f').accept e) ∨
    ∃ f' g, f.CanFinish ∧ Ended { f with m_next := some l.files.length } f' ∧ f'.Closed ∧
      FinishesTo f l.files.length f' ∧
      (LogFile.create (f.m_fileId + 1) f.m_logIndex e.logIndex).append cfg e = some (.ok g) ∧
      (LogFile.create (f.m_fileId + 1) f.m_logIndex e.logIndex).Stores g e ∧
      r = ((l.rotated f f' e.logIndex).setFile l.files.length g).accept e := by
  rw [append_eq_run] at happend
  have hends : Retry.Ends (appendStep cfg e) l := ⟨fuel, by rw [happend]; rfl⟩
  by_cases htakes : f.Takes cfg e
  · obtain ⟨hlast, f', hok, hstores⟩ := h.append_of_takes hf hprev htakes
    rw [Retry.run_of_return (appendStep_of_ok hf hok) happend]
    exact .inl ⟨f', hlast, hok, hstores hproper hcfg, rfl⟩
  · by_cases hfull : f.IsFull cfg e
    · have hstep := appendStep_of_full hf hprev hfull
      by_cases hfinish : f.CanFinish
      · -- a new file takes the entry or nothing is returned
        obtain ⟨f', hrotate, hended, hclosed, hfinishes⟩ := h.rotate hf hfinish e.logIndex
        rw [hrotate] at hstep
        obtain ⟨fuel', hagain⟩ := Retry.run_of_retry hstep happend
        by_cases hroom : (HEAD_SIZE + e.size) % 2 ^ 32 < cfg.m_defaultLogFileSize ∧
            0 < cfg.maxBlockCount
        · obtain ⟨g, hreturn, hok, hstores⟩ := appendStep_rotated l f' hprev hroom.1 hroom.2
          rw [Retry.run_of_return hreturn hagain]
          exact .inr ⟨f', g, hfinish, hended, hclosed, hfinishes, hok, hstores hproper hcfg, rfl⟩
        · have hstuck := appendStep_rotated_none l f' hprev hroom
          exact absurd ⟨fuel', by rw [hagain]; rfl⟩ (Retry.not_ends_of_stuck hstuck)
      · rw [rotate_of_not hfinish] at hstep
        exact absurd hends (Retry.not_ends_of_stuck hstep)
    · exact absurd hends (Retry.not_ends_of_stuck (appendStep_of_neither hf hprev htakes hfull))

theorem Ok.outcome (h : l.Ok) (hproper : e.Proper) (hcfg : cfg.m_defaultLogFileSize ≤ 2 ^ 31)
    {fuel : Nat} {r : Option ErrorCode × ClusterLog} (happend : append cfg fuel l e = some r) :
    l.Outcome e r := by
  obtain ⟨f, hf⟩ := h.current_eq
  rcases lt_trichotomy f.m_logIndex e.prevRecordLogIndex with hlt | hprev | hgt
  · rw [append_eq_run] at happend
    rw [Retry.run_of_return (appendStep_of_lt hf hlt) happend]
    exact .refused _
  · rcases h.outcome_of_eq hproper hcfg hf hprev happend with
      ⟨f', hlast, -, hstores, rfl⟩ | ⟨f', g, hfinish, hended, hclosed, -, -, hstores, rfl⟩
    · exact .stored hf hprev hlast hstores
    · exact .rotated hf hprev hfinish hended hclosed hstores
  · rw [append_eq_run] at happend
    have hends : Retry.Ends (appendStep cfg e) l := ⟨fuel, by rw [happend]; rfl⟩
    by_cases hback : l.RollsBack f e.logIndex
    · have hloops := h.loops hf hgt hback
      by_cases hkeys : ∀ p ∈ l.m_files, p.1 = f.m_logIndex
      · rcases hloops.step cfg with ⟨-, hstuck⟩ | ⟨f', -, hrolled, hrollback, hretry⟩
        · exact absurd hends (Retry.not_ends_of_stuck hstuck)
        · -- the second entry fails
          obtain ⟨fuel', hagain⟩ := Retry.run_of_retry hretry happend
          obtain ⟨code, hreturn⟩ := hloops.leaves cfg hrolled hkeys
          rw [Retry.run_of_return hreturn hagain]
          exact .emptied _ ⟨hloops, hkeys, hrollback⟩
      · push Not at hkeys
        exact absurd hends (hloops.not_ends hkeys)
    · obtain ⟨code, l', hrollback, hl'⟩ := h.rollback_fails hf hback
      have hstep := appendStep_of_gt cfg hf hgt
      rw [hrollback] at hstep
      rw [Retry.run_of_return hstep happend]
      rcases hl' with rfl | ⟨i, g, g', hmoved⟩
      · exact .refused _
      · exact .moved _ hmoved

/-! ## The log stays as appends leave it -/

theorem accept_eq (l : ClusterLog) (e : LogEntryRpcBase) :
    ∃ code i, l.accept e = (code, { l with m_commitLogIndex := i }) := by
  rw [accept]
  split
  · exact ⟨_, l.m_commitLogIndex, rfl⟩
  · split
    · exact ⟨_, _, rfl⟩
    · exact ⟨_, l.m_commitLogIndex, rfl⟩

theorem Ok.accept (h : l.Ok) (e : LogEntryRpcBase) : (l.accept e).2.Ok := by
  obtain ⟨code, i, heq⟩ := accept_eq l e
  rw [heq]
  exact ⟨h.1, h.2, h.3, h.4, h.5, h.6, h.7⟩

theorem getElem?_set_cases {files : List LogFile} {i j : Nat} {g : LogFile}
    (hg : (files.set i f')[j]? = some g) : (j = i ∧ g = f') ∨ (j ≠ i ∧ files[j]? = some g) := by
  by_cases hij : j = i
  · subst hij
    have hlt : j < files.length := by simpa using (List.getElem?_eq_some_iff.mp hg).1
    rw [List.getElem?_set_self hlt] at hg
    exact .inl ⟨rfl, (Option.some.inj hg).symm⟩
  · rw [List.getElem?_set_ne (Ne.symm hij)] at hg
    exact .inr ⟨hij, hg⟩

/-- A file may be replaced by one with the same frame. -/
theorem Ok.setFile {i : Nat} (h : l.Ok) (hf : l.files[i]? = some f) (hframe : f.Frame f')
    (hshut : f'.Closed ∨ i + 1 = l.files.length ∧ ∃ blocks, f'.Open blocks)
    (hopened : i = l.m_currentLogFile → i + 1 = l.files.length → ∃ blocks, f'.Open blocks) :
    (l.setFile i f').Ok := by
  -- every file of the new log has the ids of the one at its place before
  have hold : ∀ (j : Nat) g, (l.setFile i f').files[j]? = some g → ∃ g₀ : LogFile,
      l.files[j]? = some g₀ ∧ g₀.Frame g := by
    intro j g hg
    rcases getElem?_set_cases hg with ⟨rfl, rfl⟩ | ⟨-, hg⟩
    · exact ⟨f, hf, hframe⟩
    · exact ⟨g, hg, rfl, rfl, rfl⟩
  have hlength : (l.setFile i f').files.length = l.files.length := List.length_set
  constructor
  case current_lt => exact h.current_lt.trans_eq hlength.symm
  case fileId =>
    intro j g hg
    obtain ⟨g₀, hg₀, hsame⟩ := hold j g hg
    exact hsame.fileId.trans (h.fileId j g₀ hg₀)
  case next =>
    intro j g hg
    obtain ⟨g₀, hg₀, hsame⟩ := hold j g hg
    rw [hsame.next, hlength]
    exact h.next j g₀ hg₀
  case begins =>
    intro j k g g' hlt hg hg'
    obtain ⟨g₀, hg₀, hsame⟩ := hold j g hg
    obtain ⟨g₁, hg₁, hsame'⟩ := hold k g' hg'
    rw [hsame.begin_eq, hsame'.begin_eq]
    exact h.begins j k g₀ g₁ hlt hg₀ hg₁
  case keys =>
    intro p hp
    obtain ⟨g₀, hg₀, hbegin⟩ := h.keys p hp
    by_cases hpi : p.2 = i
    · have hlt : i < l.files.length := (List.getElem?_eq_some_iff.mp hf).1
      rw [hpi, hf] at hg₀
      refine ⟨f', by simp [ClusterLog.setFile, hpi, hlt], ?_⟩
      rw [hframe.begin_eq, Option.some.inj hg₀, hbegin]
    · refine ⟨g₀, ?_, hbegin⟩
      rw [ClusterLog.setFile, List.getElem?_set_ne (Ne.symm hpi)]
      exact hg₀
  case shut =>
    intro j g hg
    rw [hlength]
    rcases getElem?_set_cases hg with ⟨rfl, rfl⟩ | ⟨-, hg⟩
    · exact hshut
    · exact h.shut j g hg
  case opened =>
    intro hlast g hg
    rw [hlength] at hlast
    rcases getElem?_set_cases hg with ⟨hi, rfl⟩ | ⟨-, hg⟩
    · exact hopened hi.symm (hi ▸ hlast)
    · exact h.opened hlast g hg

theorem Ok.moved {i : Nat} {g g' : LogFile} (h : l.Ok) (hmoved : l.Moved l' i g g') : l'.Ok := by
  obtain ⟨-, hlt, hg, hended, hclosed, rfl⟩ := hmoved
  have hcurrent_lt := h.current_lt
  have hat : { l with m_currentLogFile := i }.Ok := by
    refine ⟨?_, h.fileId, h.next, h.begins, h.keys, h.shut, ?_⟩
    · simp only
      omega
    · simp only
      omega
  exact hat.setFile hg hended.frame (.inl hclosed) fun hi => absurd hi (Nat.succ_ne_self i)

theorem Ok.begin_lt (h : l.Ok) (hf : l.current = some f) (hfinish : f.CanFinish)
    (hprev : f.m_logIndex < e.logIndex) : f.m_beginLogIndex < e.logIndex := by
  obtain ⟨blocks, hopen⟩ := h.opened (h.last_of_canFinish hf hfinish) f hf
  have hne : blocks ≠ [] := by
    rintro rfl
    obtain ⟨p, hp, -⟩ := hfinish
    rw [hopen.currentBlock_nil] at hp
    cases hp
  exact (hopen.begin_le hne).trans_lt hprev

theorem rotated_files {g : LogFile} :
    ((l.rotated f f' e.logIndex).setFile l.files.length g).files =
      l.files.set l.m_currentLogFile f' ++ [g] := by
  simp [ClusterLog.rotated, ClusterLog.setFile]

/-- A file of the new log is an earlier one, the one that was closed or the new one. -/
theorem rotated_cases {g k : LogFile} {j : Nat} (hlast : l.m_currentLogFile + 1 = l.files.length)
    (hk : ((l.rotated f f' e.logIndex).setFile l.files.length g).files[j]? = some k) :
    (j < l.m_currentLogFile ∧ l.files[j]? = some k) ∨ (j = l.m_currentLogFile ∧ k = f') ∨
      (j = l.files.length ∧ k = g) := by
  rw [rotated_files] at hk
  by_cases hj : j < l.files.length
  · rw [List.getElem?_append_left (by simpa using hj)] at hk
    rcases getElem?_set_cases hk with ⟨rfl, rfl⟩ | ⟨hne, hk⟩
    · exact .inr (.inl ⟨rfl, rfl⟩)
    · exact .inl ⟨by omega, hk⟩
  · have hlt := (List.getElem?_eq_some_iff.mp hk).1
    simp only [List.length_append, List.length_set, List.length_singleton] at hlt
    have heq : j = l.files.length := by omega
    subst heq
    exact .inr (.inr ⟨rfl, by simpa using hk.symm⟩)

/-- The keys of `m_files` are the first indexes of their files, that of the new one included. -/
theorem Ok.rotated_keys {g : LogFile} (h : l.Ok) (hf : l.current = some f)
    (hended : Ended { f with m_next := some l.files.length } f')
    (hframe : (LogFile.create (f.m_fileId + 1) f.m_logIndex e.logIndex).Frame g) :
    ∀ p ∈ ((l.rotated f f' e.logIndex).setFile l.files.length g).m_files,
      ∃ k, ((l.rotated f f' e.logIndex).setFile l.files.length g).files[p.2]? = some k ∧
        k.m_beginLogIndex = p.1 := by
  intro p hp
  rw [rotated_files]
  rcases SortedEntries.mem_insert hp with rfl | hp
  · exact ⟨g, by simp, hframe.begin_eq⟩
  · obtain ⟨k, hk, hkey⟩ := h.keys p hp
    have hlt := (List.getElem?_eq_some_iff.mp hk).1
    by_cases hpi : p.2 = l.m_currentLogFile
    · refine ⟨f', ?_, ?_⟩
      · rw [List.getElem?_append_left (by simpa using hlt), hpi,
          List.getElem?_set_self h.current_lt]
      · have hkf : k = f := by
          rw [hpi] at hk
          exact Option.some.inj (hk.symm.trans hf)
        rw [hended.frame.begin_eq, ← hkey, hkf]
    · refine ⟨k, ?_, hkey⟩
      rw [List.getElem?_append_left (by simpa using hlt), List.getElem?_set_ne (Ne.symm hpi)]
      exact hk

/-- A new file behind the last one. -/
theorem Ok.rotated {g : LogFile} (h : l.Ok) (hf : l.current = some f) (hfinish : f.CanFinish)
    (hprev : f.m_logIndex < e.logIndex) (hended : Ended { f with m_next := some l.files.length } f')
    (hclosed : f'.Closed) (hstores : (LogFile.create (f.m_fileId + 1) f.m_logIndex e.logIndex).Stores g e) :
    ((l.rotated f f' e.logIndex).setFile l.files.length g).Ok := by
  have hlast := h.last_of_canFinish hf hfinish
  have hbegin := h.begin_lt hf hfinish hprev
  have hframe := hstores.frame
  have hfiles : ((l.rotated f f' e.logIndex).setFile l.files.length g).files =
      l.files.set l.m_currentLogFile f' ++ [g] := rotated_files
  have hlength : ((l.rotated f f' e.logIndex).setFile l.files.length g).files.length =
      l.files.length + 1 := by simp [hfiles]
  -- a file before the one rotated, this one as it was ended, or the new one
  have hcases : ∀ j k, ((l.rotated f f' e.logIndex).setFile l.files.length g).files[j]? = some k →
      (j < l.m_currentLogFile ∧ l.files[j]? = some k) ∨ (j = l.m_currentLogFile ∧ k = f') ∨
        (j = l.files.length ∧ k = g) := fun _ _ => rotated_cases hlast
  have hold : ∀ j k, j < l.m_currentLogFile → l.files[j]? = some k →
      k.m_beginLogIndex < f.m_beginLogIndex := fun j k hj hk => h.begins j _ k f hj hk hf
  constructor
  case current_lt =>
    rw [hlength]
    exact Nat.lt_succ_self _
  case fileId =>
    intro j k hk
    rcases hcases j k hk with ⟨-, hk⟩ | ⟨rfl, rfl⟩ | ⟨rfl, rfl⟩
    · exact h.fileId j k hk
    · exact hended.frame.fileId.trans (h.fileId _ f hf)
    · have hid := h.fileId _ f hf
      rw [hframe.fileId]
      simp only [LogFile.create]
      omega
  case next =>
    intro j k hk
    rw [hlength]
    rcases hcases j k hk with ⟨hj, hk⟩ | ⟨rfl, rfl⟩ | ⟨rfl, rfl⟩
    · rw [h.next j k hk, if_pos (by omega), if_pos (by omega)]
    · rw [hended.frame.next, if_pos (by omega), hlast]
    · rw [hframe.next, if_neg (lt_irrefl _)]
      rfl
  case begins =>
    intro i j k k' hlt hk hk'
    rcases hcases j k' hk' with ⟨hj, hk'⟩ | ⟨rfl, rfl⟩ | ⟨rfl, rfl⟩
    · rcases hcases i k hk with ⟨-, hk⟩ | ⟨rfl, rfl⟩ | ⟨rfl, rfl⟩
      · exact h.begins i j k k' hlt hk hk'
      · omega
      · omega
    · rw [hended.frame.begin_eq]
      rcases hcases i k hk with ⟨hi, hk⟩ | ⟨rfl, rfl⟩ | ⟨rfl, rfl⟩
      · exact hold i k hi hk
      · exact absurd hlt (lt_irrefl _)
      · omega
    · rw [hframe.begin_eq]
      rcases hcases i k hk with ⟨hi, hk⟩ | ⟨rfl, rfl⟩ | ⟨rfl, rfl⟩
      · exact (hold i k hi hk).trans hbegin
      · rw [hended.frame.begin_eq]
        exact hbegin
      · exact absurd hlt (lt_irrefl _)
  case keys =>
    exact h.rotated_keys hf hended hframe
  -- only the new file is open
  case shut =>
    intro j k hk
    rw [hlength]
    rcases hcases j k hk with ⟨hj, hk⟩ | ⟨rfl, rfl⟩ | ⟨rfl, rfl⟩
    · rcases h.shut j k hk with hclosed | ⟨hj', -⟩
      · exact .inl hclosed
      · omega
    · exact .inl hclosed
    · exact .inr ⟨rfl, hstores.opened⟩
  case opened =>
    intro _ k hk
    rcases hcases _ k hk with ⟨hj, -⟩ | ⟨hj, -⟩ | ⟨-, rfl⟩
    · exact absurd hj (not_lt.mpr h.current_lt.le)
    · exact absurd hj h.current_lt.ne'
    · exact hstores.opened

theorem Ok.emptied_cases (h : l.Ok) (hemptied : l.Emptied e f f') :
    l.m_currentLogFile + 1 = l.files.length ∧ ∃ blocks, f.Open blocks ∧
      (f' = f ∨ f.m_beginLogIndex = f.m_logIndex ∧ f.m_logIndex = e.logIndex ∧
        f.cutPlace e.logIndex = some (some (0, 0)) ∧ f.CutFile f' []) := by
  have hlast : l.m_currentLogFile + 1 = l.files.length := by
    have hlt := h.current_lt
    have hif := h.next _ f hemptied.current
    by_contra hne
    rw [if_pos (by omega), hemptied.rollsBack.2.2] at hif
    cases hif
  obtain ⟨blocks, hopen⟩ := h.opened hlast f hemptied.current
  -- the only key is the last index, so it is the first index of the last file
  have hbegin : blocks ≠ [] → f.m_beginLogIndex = f.m_logIndex := by
    intro hne
    obtain ⟨p, hp⟩ := List.exists_mem_of_ne_nil _ (files_ne_nil hemptied.rollsBack.2.1)
    obtain ⟨g, hg, hkey⟩ := h.keys p hp
    rw [hemptied.keys p hp] at hkey
    have hlt := (List.getElem?_eq_some_iff.mp hg).1
    rcases Nat.lt_or_eq_of_le (show p.2 ≤ l.m_currentLogFile by omega) with hi | hi
    · have := h.begins _ _ g f hi hg hemptied.current
      rw [hkey] at this
      exact absurd (hopen.begin_le hne) (not_le.mpr this)
    · rw [hi] at hg
      rwa [← Option.some.inj (hemptied.current.symm.trans hg)] at hkey
  refine ⟨hlast, blocks, hopen, ?_⟩
  rcases hopen.rollback_first hbegin hemptied.begin_le with
    ⟨-, hsame⟩ | ⟨hfirst, hidx, hplace, g, hcut, hcutFile⟩
  · cases hemptied.rollback.symm.trans hsame
    exact .inl rfl
  · cases hemptied.rollback.symm.trans hcut
    exact .inr ⟨hfirst, hidx, hplace, hcutFile⟩

theorem Ok.emptied (h : l.Ok) (hemptied : l.Emptied e f f') : (l.rolledBack f').Ok := by
  obtain ⟨hlast, blocks, hopen, hcases⟩ := h.emptied_cases hemptied
  have hf' : f.Frame f' ∧ ∃ blocks, f'.Open blocks := by
    rcases hcases with rfl | ⟨-, -, -, hcut⟩
    · exact ⟨⟨rfl, rfl, rfl⟩, _, hopen⟩
    · have hsame := hcut.same
      refine ⟨by rw [hsame]; exact ⟨rfl, rfl, rfl⟩, [], hopen.cut_nil hcut, ?_⟩
      intro _ x hx
      rw [hsame] at hx ⊢
      exact hopen.begin_le_of_lt hx
  obtain ⟨hframe, blocks', hopen'⟩ := hf'
  have hset := h.setFile hemptied.current hframe (.inr ⟨hlast, _, hopen'⟩) fun _ _ => ⟨_, hopen'⟩
  rw [rolledBack, LogFile.with_next_none (hframe.next.trans hemptied.rollsBack.2.2)]
  exact ⟨hset.1, hset.2, hset.3, hset.4, fun p hp => hset.keys p (List.mem_of_mem_filter hp), hset.6,
    hset.7⟩

theorem Ok.of_outcome {r : Option ErrorCode × ClusterLog} (h : l.Ok) (hproper : e.Proper)
    (hr : l.Outcome e r) : r.2.Ok := by
  cases hr with
  | refused => exact h
  | moved _ hmoved => exact h.moved hmoved
  | stored hf hprev hlast hstores =>
    have hset := h.setFile hf hstores.frame (.inr ⟨hlast, hstores.opened⟩) fun _ _ => hstores.opened
    exact hset.accept e
  | rotated hf hprev hfinish hended hclosed hstores =>
    exact (h.rotated hf hfinish (hprev ▸ hproper.prev_lt) hended hclosed hstores).accept e
  | emptied _ hemptied => exact h.emptied hemptied

/-! ## When it returns -/

/-- The entry is ahead of the file, or a rollback to it is refused or leaves no file in `m_files`, or
    it is stored: in the file or in the next one. -/
def Returns (l : ClusterLog) (cfg : LogConfig) (e : LogEntryRpcBase) (f : LogFile) : Prop :=
  f.m_logIndex < e.prevRecordLogIndex ∨
  (e.prevRecordLogIndex < f.m_logIndex ∧ (l.RollsBack f e.logIndex →
    f.cutPlace e.logIndex ≠ none ∧ ∀ p ∈ l.m_files, p.1 = f.m_logIndex)) ∨
  (f.m_logIndex = e.prevRecordLogIndex ∧ (f.Takes cfg e ∨ (f.IsFull cfg e ∧ f.CanFinish ∧
    (HEAD_SIZE + e.size) % 2 ^ 32 < cfg.m_defaultLogFileSize ∧ 0 < cfg.maxBlockCount)))

theorem Ok.ends_of_eq (h : l.Ok) (hf : l.current = some f)
    (hprev : f.m_logIndex = e.prevRecordLogIndex) :
    Retry.Ends (appendStep cfg e) l ↔ f.Takes cfg e ∨ (f.IsFull cfg e ∧ f.CanFinish ∧
      (HEAD_SIZE + e.size) % 2 ^ 32 < cfg.m_defaultLogFileSize ∧ 0 < cfg.maxBlockCount) := by
  by_cases htakes : f.Takes cfg e
  · obtain ⟨-, f', hok, -⟩ := h.append_of_takes hf hprev htakes
    exact iff_of_true (Retry.ends_of_return (appendStep_of_ok hf hok)) (.inl htakes)
  · rw [or_iff_right htakes]
    by_cases hfull : f.IsFull cfg e
    · have hstep := appendStep_of_full hf hprev hfull
      by_cases hfinish : f.CanFinish
      · obtain ⟨f', hrotate, -⟩ := h.rotate hf hfinish e.logIndex
        rw [hrotate] at hstep
        rw [Retry.ends_iff_of_retry hstep]
        by_cases hroom : (HEAD_SIZE + e.size) % 2 ^ 32 < cfg.m_defaultLogFileSize ∧
            0 < cfg.maxBlockCount
        · obtain ⟨g, hreturn, -⟩ := appendStep_rotated l f' hprev hroom.1 hroom.2
          exact iff_of_true (Retry.ends_of_return hreturn) ⟨hfull, hfinish, hroom⟩
        · have hstuck := appendStep_rotated_none l f' hprev hroom
          exact iff_of_false (Retry.not_ends_of_stuck hstuck) fun hand => hroom hand.2.2
      · rw [rotate_of_not hfinish] at hstep
        exact iff_of_false (Retry.not_ends_of_stuck hstep) fun hand => hfinish hand.2.1
    · have hstuck := appendStep_of_neither hf hprev htakes hfull
      exact iff_of_false (Retry.not_ends_of_stuck hstuck) fun hand => hfull hand.1

theorem Ok.ends_of_gt (h : l.Ok) (hf : l.current = some f)
    (hgt : e.prevRecordLogIndex < f.m_logIndex) :
    Retry.Ends (appendStep cfg e) l ↔ (l.RollsBack f e.logIndex →
      f.cutPlace e.logIndex ≠ none ∧ ∀ p ∈ l.m_files, p.1 = f.m_logIndex) := by
  by_cases hback : l.RollsBack f e.logIndex
  · have hloops := h.loops hf hgt hback
    rw [forall_prop_of_true hback]
    by_cases hkeys : ∀ p ∈ l.m_files, p.1 = f.m_logIndex
    · rcases hloops.step cfg with ⟨hnone, hstuck⟩ | ⟨f', hplace, hrolled, -, hretry⟩
      · exact iff_of_false (Retry.not_ends_of_stuck hstuck) fun hand => hand.1 hnone
      · obtain ⟨code, hreturn⟩ := hloops.leaves cfg hrolled hkeys
        rw [Retry.ends_iff_of_retry hretry]
        exact iff_of_true (Retry.ends_of_return hreturn) ⟨hplace, hkeys⟩
    · refine iff_of_false ?_ fun hand => hkeys hand.2
      push Not at hkeys
      exact hloops.not_ends hkeys
  · obtain ⟨code, l', hrollback, -⟩ := h.rollback_fails hf hback
    have hstep := appendStep_of_gt cfg hf hgt
    rw [hrollback] at hstep
    exact iff_of_true (Retry.ends_of_return hstep) fun hrolls => absurd hrolls hback

theorem Ok.ends_iff (h : l.Ok) (hf : l.current = some f) :
    (∃ fuel, (append cfg fuel l e).isSome) ↔ l.Returns cfg e f := by
  have hends : (∃ fuel, (ClusterLog.append cfg fuel l e).isSome) ↔
      Retry.Ends (appendStep cfg e) l := by
    simp only [append_eq_run, Retry.Ends]
  rw [hends, Returns]
  rcases lt_trichotomy f.m_logIndex e.prevRecordLogIndex with hlt | hprev | hgt
  · exact iff_of_true (Retry.ends_of_return (appendStep_of_lt hf hlt)) (.inl hlt)
  · simp [h.ends_of_eq hf hprev, hprev]
  · simp [h.ends_of_gt hf hgt, hgt, hgt.ne', hgt.le]

/-! ## Runs -/

/-- The logs that appends make from one with its first file. -/
inductive Reached (cfg : LogConfig) : ClusterLog → Prop
  | first : Reached cfg first
  | append {l : ClusterLog} {e : LogEntryRpcBase} {fuel : Nat} {r : Option ErrorCode × ClusterLog}
      (h : Reached cfg l) (he : e.Proper) (happend : append cfg fuel l e = some r) : Reached cfg r.2

theorem Reached.ok (h : Reached cfg l) (hcfg : cfg.m_defaultLogFileSize ≤ 2 ^ 31) : l.Ok := by
  induction h with
  | first => exact first_ok
  | append _ he happend ih => exact ih.of_outcome he (ih.outcome he hcfg happend)

/-- In every log of a run, exactly these entries make `append` return. -/
theorem append_returns_iff (hcfg : cfg.m_defaultLogFileSize ≤ 2 ^ 31) (h : Reached cfg l)
    (e : LogEntryRpcBase) :
    ∃ f ∈ l.current, ((∃ fuel, (append cfg fuel l e).isSome) ↔ l.Returns cfg e f) := by
  obtain ⟨f, hf⟩ := (h.ok hcfg).current_eq
  exact ⟨f, hf, (h.ok hcfg).ends_iff hf⟩

/-- An entry of term 1 without a body. -/
def entry (i leaderCommitIndex : Nat) : LogEntryRpcBase where
  recordType := 2
  version := VERSION
  logIndex := ⟨1, i + 1⟩
  prevRecordLogIndex := ⟨1, i⟩
  leaderCommitIndex := leaderCommitIndex
  body := []

theorem entry_proper {i leaderCommitIndex : Nat} (hi : i < 2 ^ 63) :
    (entry i leaderCommitIndex).Proper := by
  refine ⟨.inr ⟨rfl, Nat.lt_succ_self i⟩, ⟨?_, ?_⟩, ?_⟩
  · simp [entry]
  · simp only [entry]
    omega
  · simp [entry, LogEntryRpcBase.size, logEntryRpcBaseSize]

/-- Several appends, all of which succeed. -/
def appendAll (cfg : LogConfig) (fuel : Nat) : ClusterLog → List LogEntryRpcBase → Option ClusterLog
  | l, [] => some l
  | l, e :: es => do
    match ← append cfg fuel l e with
    | (none, l) => appendAll cfg fuel l es
    | (some _, _) => none

/-- The log has two entries, and the second one comes again. -/
theorem append_never_returns : ∃ l, Reached .new l ∧ (entry 1 0).Proper ∧
    ∀ fuel, append .new fuel l (entry 1 0) = none := by
  obtain ⟨l₁, hl₁⟩ : ∃ l, append .new 1 first (entry 0 0) = some (none, l) := ⟨_, rfl⟩
  obtain ⟨l₂, hl₂, f, hf, hlast, hbegin, hnext, hcommit, hfiles⟩ :
      ∃ l, append .new 1 l₁ (entry 1 0) = some (none, l) ∧ ∃ f, l.current = some f ∧
        f.m_logIndex = ⟨1, 2⟩ ∧ f.m_beginLogIndex = ⟨1, 1⟩ ∧ f.m_next = none ∧
        l.m_commitLogIndex = ⟨0, 0⟩ ∧ l.m_files = [(⟨1, 1⟩, 0)] := by
    cases hl₁
    exact ⟨_, rfl, _, rfl, rfl, rfl, rfl, rfl, rfl⟩
  have hreached : Reached .new l₂ :=
    (Reached.first.append (entry_proper (by decide)) hl₁).append (entry_proper (by decide)) hl₂
  refine ⟨l₂, hreached, entry_proper (by decide), ?_⟩
  have hnot : ¬ l₂.Returns .new (entry 1 0) f := by
    have hle : f.m_beginLogIndex ≤ (entry 1 0).logIndex := by
      rw [hbegin]
      decide
    have hback : l₂.RollsBack f (entry 1 0).logIndex := by
      refine ⟨?_, find_of_le hf (by simp [hfiles]) hle, hnext⟩
      rw [hcommit]
      decide
    rw [Returns, hlast]
    rintro (hlt | ⟨-, hkeys⟩ | ⟨heq, -⟩)
    · exact absurd hlt (by decide)
    · have hkey := (hkeys hback).2 (⟨1, 1⟩, 0) (by simp [hfiles])
      exact absurd hkey (by decide)
    · exact absurd heq (by decide)
  intro fuel
  by_contra hsome
  exact hnot (((hreached.ok (by decide)).ends_iff hf).mp ⟨fuel, Option.isSome_iff_ne_none.mpr hsome⟩)

/-- The only entry of a log comes again: the rollback to it leaves no file in `m_files`, and the call
    returns. -/
theorem append_returns_again : ∃ l, ∃ f ∈ l.current, Reached .new l ∧ f.m_logIndex = ⟨1, 1⟩ ∧
    l.RollsBack f (entry 0 0).logIndex ∧ ∃ fuel, (append .new fuel l (entry 0 0)).isSome := by
  obtain ⟨l, happend, f, hf, hlast, hbegin, hnext, hcommit, hfiles, hcut⟩ :
      ∃ l, append .new 1 first (entry 0 0) = some (none, l) ∧ ∃ f, l.current = some f ∧
        f.m_logIndex = ⟨1, 1⟩ ∧ f.m_beginLogIndex = ⟨1, 1⟩ ∧ f.m_next = none ∧
        l.m_commitLogIndex = ⟨0, 0⟩ ∧ l.m_files = [(⟨1, 1⟩, 0)] ∧
        (f.cutPlace (entry 0 0).logIndex).isSome :=
    ⟨_, rfl, _, rfl, rfl, rfl, rfl, rfl, rfl, rfl⟩
  have hreached : Reached .new l := Reached.first.append (entry_proper (by decide)) happend
  have hback : l.RollsBack f (entry 0 0).logIndex := by
    refine ⟨?_, find_of_le hf (by simp [hfiles]) ?_, hnext⟩
    · rw [hcommit]
      decide
    · rw [hbegin]
      decide
  have hreturns : l.Returns .new (entry 0 0) f := by
    refine .inr (.inl ⟨?_, fun _ => ⟨?_, ?_⟩⟩)
    · rw [hlast]
      decide
    · exact Option.isSome_iff_ne_none.mp hcut
    · simp [hfiles, hlast]
  obtain ⟨g, hg, hiff⟩ := append_returns_iff (by decide) hreached (entry 0 0)
  rw [hf] at hg
  cases hg
  exact ⟨l, f, hf, hreached, hlast, hback, hiff.mpr hreturns⟩

end DBStream.Native.CLUSTER.ClusterLog
