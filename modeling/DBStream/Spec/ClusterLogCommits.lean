import DBStream.Spec.ClusterLogReturns

/-!
# Committed entries of the cluster log

An accepted entry tells how far the log is committed.  Entries up to there stay where they were
stored, unless `rollback` cuts the file there: `m_commitLogIndex` never moves, so it refuses nothing.
-/

namespace DBStream.Native.CLUSTER.ClusterLog

open LogFile

variable {l l' : ClusterLog} {cfg : LogConfig} {e : LogEntryRpcBase} {f f' : LogFile}

/-! ## Files that grow -/

/-- No file of the log has lost anything. -/
def Grows (l l' : ClusterLog) : Prop :=
  ∀ (i : Nat) (f : LogFile), l.files[i]? = some f → ∃ f' : LogFile,
    l'.files[i]? = some f' ∧ f.stream <+: f'.stream ∧
    f'.m_beginLogIndex = f.m_beginLogIndex ∧ f.m_logIndex ≤ f'.m_logIndex

theorem Grows.refl (l : ClusterLog) : l.Grows l := fun _ f hf => ⟨f, hf, List.prefix_rfl, rfl, le_rfl⟩

theorem grows_setFile {i : Nat} (hf : l.files[i]? = some f) (hstream : f.stream <+: f'.stream)
    (hbegin : f'.m_beginLogIndex = f.m_beginLogIndex) (hle : f.m_logIndex ≤ f'.m_logIndex) :
    l.Grows (l.setFile i f') := by
  intro j g hg
  by_cases hij : j = i
  · subst hij
    rw [hf] at hg
    cases hg
    have hlt := (List.getElem?_eq_some_iff.mp hf).1
    exact ⟨f', List.getElem?_set_self hlt, hstream, hbegin, hle⟩
  · refine ⟨g, ?_, List.prefix_rfl, rfl, le_rfl⟩
    rw [setFile, List.getElem?_set_ne (Ne.symm hij)]
    exact hg

theorem Grows.of_files (h : l.Grows l') {l₁ : ClusterLog} (heq : l₁.files = l'.files) :
    l.Grows l₁ := by
  intro i f hf
  rw [heq]
  exact h i f hf

theorem accept_files (l : ClusterLog) (e : LogEntryRpcBase) : (l.accept e).2.files = l.files ∧
    (l.accept e).2.m_currentLogFile = l.m_currentLogFile := by
  obtain ⟨code, i, heq⟩ := accept_eq l e
  rw [heq]
  exact ⟨rfl, rfl⟩

/-! ## Accepted entries -/

/-- An entry, and where it was stored: the file and the place in it. -/
structure Accepted where
  file : Nat
  offset : Nat
  entry : LogEntryRpcBase

namespace Accepted

def In (a : Accepted) (l : ClusterLog) : Prop :=
  ∃ f, l.files[a.file]? = some f ∧ ∃ d, d.length = a.offset ∧ d ++ a.entry.bytes <+: f.stream

/-- The entry that a log has just accepted is at the end of the current file. -/
def last (l : ClusterLog) (e : LogEntryRpcBase) : Accepted where
  file := l.m_currentLogFile
  offset := (l.current.map (·.stream)).elim 0 (·.length - e.size)
  entry := e

variable {a : Accepted}

theorem In.grows (h : a.In l) (hgrows : l.Grows l') : a.In l' := by
  obtain ⟨f, hf, d, hd, hin⟩ := h
  obtain ⟨f', hf', hstream, -⟩ := hgrows _ f hf
  exact ⟨f', hf', d, hd, hin.trans hstream⟩

theorem last_in {d : List UInt8} (hf : l.current = some f) (hstream : f.stream = d ++ e.bytes) :
    (last l e).In l := by
  refine ⟨f, hf, d, ?_, ?_⟩
  · simp [last, hf, hstream, LogEntryRpcBase.length_bytes]
  · rw [hstream]
    exact List.prefix_rfl

/-- The index of the entry is one of its file. -/
def Within (a : Accepted) (l : ClusterLog) : Prop :=
  ∃ f, l.files[a.file]? = some f ∧ f.m_beginLogIndex ≤ a.entry.logIndex ∧
    a.entry.logIndex ≤ f.m_logIndex

theorem Within.grows (h : a.Within l) (hgrows : l.Grows l') : a.Within l' := by
  obtain ⟨f, hf, hge, hle⟩ := h
  obtain ⟨f', hf', -, hbegin, hlast⟩ := hgrows _ f hf
  exact ⟨f', hf', hbegin.trans_le hge, hle.trans hlast⟩

end Accepted

/-! ## Runs that cut nothing that is committed -/

/-- `append` of the entry cuts the current file at a place where it is committed. -/
def CutsCommitted (l : ClusterLog) (e : LogEntryRpcBase) (committed : Nat) : Prop :=
  ∃ f ∈ l.current, e.prevRecordLogIndex < f.m_logIndex ∧ l.RollsBack f e.logIndex ∧
    (∃ place, f.cutPlace e.logIndex = some (some place)) ∧ e.logIndex.logIndex ≤ committed

/-- The accepted entries after an `append`: those that are not committed may have gone. -/
def nextAccepted (accepted : Set Accepted) (committed : Nat) (e : LogEntryRpcBase)
    (r : Option ErrorCode × ClusterLog) : Set Accepted :=
  { a | (a ∈ accepted ∨ r.1 = none ∧ a = .last r.2 e) ∧
    (a.entry.logIndex.logIndex ≤ committed ∨ a.In r.2) }

/-- How far the log is committed after an `append`. -/
def nextCommitted (committed : Nat) (e : LogEntryRpcBase) (r : Option ErrorCode × ClusterLog) : Nat :=
  if r.1 = none then max committed e.leaderCommitIndex else committed

/-- A run, with the entries it has accepted and how far these say that the log is committed. -/
inductive CommitRun (cfg : LogConfig) : ClusterLog → Set Accepted → Nat → Prop
  | first : CommitRun cfg first ∅ 0
  | append {l : ClusterLog} {accepted : Set Accepted} {committed : Nat} {e : LogEntryRpcBase}
      {fuel : Nat} {r : Option ErrorCode × ClusterLog} (h : CommitRun cfg l accepted committed)
      (he : e.Proper) (hcut : ¬ l.CutsCommitted e committed)
      (happend : append cfg fuel l e = some r) :
      CommitRun cfg r.2 (nextAccepted accepted committed e r) (nextCommitted committed e r)

/-- `append` has cut the current file, in which every entry has the index of the new one. -/
structure CutCurrent (l l' : ClusterLog) (e : LogEntryRpcBase) (f f' : LogFile) : Prop
    extends l.Loops e f where
  place : ∃ place, f.cutPlace e.logIndex = some (some place)
  first : f.m_beginLogIndex = e.logIndex
  last : f.m_logIndex = e.logIndex
  same : f'.m_beginLogIndex = e.logIndex ∧ f'.m_logIndex = e.logIndex
  files : l'.files = l.files.set l.m_currentLogFile f'

theorem CutCurrent.file_cases {i : Nat} {g : LogFile} (h : l.CutCurrent l' e f f')
    (hg : l.files[i]? = some g) :
    l'.files[i]? = some g ∨ i = l.m_currentLogFile ∧ g = f ∧ l'.files[i]? = some f' := by
  by_cases hi : i = l.m_currentLogFile
  · subst hi
    have hlt := (List.getElem?_eq_some_iff.mp hg).1
    refine .inr ⟨rfl, Option.some.inj (hg.symm.trans h.current), ?_⟩
    rw [h.files, List.getElem?_set_self hlt]
  · left
    rw [h.files, List.getElem?_set_ne (Ne.symm hi)]
    exact hg

theorem last_of_stores (hf : l.current = some f') (hstores : f.Stores f' e) :
    (Accepted.last l e).In l ∧ (Accepted.last l e).Within l := by
  obtain ⟨blocks, hkept, hne⟩ := hstores.kept
  obtain ⟨gap, hstream⟩ := hstores.stream
  refine ⟨Accepted.last_in hf hstream, f', hf, ?_, ?_⟩
  · exact (hkept.begin_le hne).trans_eq hstores.logIndex
  · exact hstores.logIndex.ge

theorem last_accept (h : (Accepted.last l e).In l ∧ (Accepted.last l e).Within l) :
    (Accepted.last (l.accept e).2 e).In (l.accept e).2 ∧
      (Accepted.last (l.accept e).2 e).Within (l.accept e).2 := by
  obtain ⟨code, i, heq⟩ := accept_eq l e
  rw [heq]
  exact h

/-- An append keeps what is stored, or has cut the current file and failed. -/
theorem Outcome.grows_or {r : Option ErrorCode × ClusterLog} (h : l.Ok) (he : e.Proper)
    (hr : l.Outcome e r) :
    (l.Grows r.2 ∧ (r.1 = none → (Accepted.last r.2 e).In r.2 ∧ (Accepted.last r.2 e).Within r.2)) ∨
      r.1 ≠ none ∧ ∃ f f', l.CutCurrent r.2 e f f' := by
  cases hr with
  | refused => exact .inl ⟨.refl l, fun hnone => by cases hnone⟩
  | moved _ hmoved =>
    obtain ⟨-, -, hg, hended, -, rfl⟩ := hmoved
    exact .inl ⟨grows_setFile hg hended.stream hended.frame.begin_eq hended.logIndex.ge,
      fun hnone => by cases hnone⟩
  | @stored f f' hf hprev hlast hstores =>
    obtain ⟨gap, hstream⟩ := hstores.stream
    have hlt : f.m_logIndex < e.logIndex := hprev ▸ he.prev_lt
    have hgrows : l.Grows (l.setFile l.m_currentLogFile f') := by
      refine grows_setFile hf ?_ hstores.frame.begin_eq (hlt.le.trans_eq hstores.logIndex.symm)
      rw [hstream, List.append_assoc]
      exact List.prefix_append _ _
    have hcurrent : (l.setFile l.m_currentLogFile f').current = some f' := by
      simp [current, setFile, h.current_lt]
    exact .inl ⟨hgrows.of_files (accept_files _ e).1,
      fun _ => last_accept (last_of_stores hcurrent hstores)⟩
  | @rotated f f' g hf hprev hfinish hended hclosed hstores =>
    have hgrows : l.Grows ((l.rotated f f' e.logIndex).setFile l.files.length g) := by
      intro i k hk
      have hlt := (List.getElem?_eq_some_iff.mp hk).1
      have hset := grows_setFile (l := l) hf hended.stream hended.frame.begin_eq hended.logIndex.ge
      obtain ⟨k', hk', hsame⟩ := hset i k hk
      refine ⟨k', ?_, hsame⟩
      rw [setFile, List.getElem?_set_ne hlt.ne', ClusterLog.rotated,
        List.getElem?_append_left (by simpa using hlt)]
      exact hk'
    have hcurrent : ((l.rotated f f' e.logIndex).setFile l.files.length g).current = some g := by
      simp [current, setFile, ClusterLog.rotated]
    exact .inl ⟨hgrows.of_files (accept_files _ e).1,
      fun _ => last_accept (last_of_stores hcurrent hstores)⟩
  | emptied _ hemptied =>
    obtain ⟨-, blocks, -, hcases⟩ := h.emptied_cases hemptied
    rcases hcases with rfl | ⟨hfirst, hidx, hplace, hcut⟩
    · left
      refine ⟨?_, fun hnone => by cases hnone⟩
      rw [rolledBack, LogFile.with_next_none hemptied.rollsBack.2.2]
      exact (grows_setFile hemptied.current List.prefix_rfl rfl le_rfl).of_files rfl
    · have hsame := hcut.same
      refine .inr ⟨by simp, _, _, hemptied.toLoops, ⟨_, hplace⟩, hfirst.trans hidx, hidx, ?_, rfl⟩
      rw [hsame]
      exact ⟨hfirst.trans hidx, hidx⟩

theorem CommitRun.invariant {accepted : Set Accepted} {committed : Nat}
    (h : CommitRun cfg l accepted committed) (hcfg : cfg.m_defaultLogFileSize ≤ 2 ^ 31) :
    l.Ok ∧ ∀ a ∈ accepted, a.In l ∧ a.Within l := by
  induction h with
  | first => exact ⟨first_ok, fun a ha => nomatch ha⟩
  | @append l accepted committed e fuel r _ he hcut happend ih =>
    obtain ⟨hok, hin⟩ := ih
    have houtcome := hok.outcome he hcfg happend
    refine ⟨hok.of_outcome he houtcome, ?_⟩
    rintro a ⟨ha, hkept⟩
    rcases houtcome.grows_or hok he with
      ⟨hgrows, hlast⟩ | ⟨hfailed, f, f', hcutCurrent⟩
    · rcases ha with ha | ⟨hnone, rfl⟩
      · exact ⟨(hin a ha).1.grows hgrows, (hin a ha).2.grows hgrows⟩
      · exact hlast hnone
    · -- every entry of the file that was cut has the index of the new entry
      rcases ha with ha | ⟨hnone, -⟩
      · obtain ⟨⟨g, hg, d, hd, hstream⟩, g', hg', hge, hle⟩ := hin a ha
        cases hg.symm.trans hg'
        rcases hcutCurrent.file_cases hg with hsame | ⟨hfile, rfl, hnew⟩
        · exact ⟨⟨g, hsame, d, hd, hstream⟩, g, hsame, hge, hle⟩
        · have hindex : a.entry.logIndex = e.logIndex :=
            le_antisymm (hle.trans_eq hcutCurrent.last) (hcutCurrent.first.ge.trans hge)
          have hwithin : a.Within r.2 := by
            refine ⟨f', hnew, ?_, ?_⟩
            · rw [hcutCurrent.same.1, hindex]
            · rw [hcutCurrent.same.2, hindex]
          rcases hkept with hle | hin
          · rw [hindex] at hle
            exact absurd ⟨g, hcutCurrent.current, hcutCurrent.behind, hcutCurrent.rollsBack,
              hcutCurrent.place, hle⟩ hcut
          · exact ⟨hin, hwithin⟩
      · exact absurd hnone hfailed

/-- In a run that cuts nothing that is committed, every accepted entry is where it was stored, those
    that are committed from before the append on, and an entry that is behind the file is rejected. -/
theorem committed_stay (hcfg : cfg.m_defaultLogFileSize ≤ 2 ^ 31) {accepted : Set Accepted}
    {committed : Nat} (h : CommitRun cfg l accepted committed) :
    (∀ a ∈ accepted, a.In l) ∧ ∀ e fuel r, e.Proper → append cfg fuel l e = some r →
      (∃ f ∈ l.current, e.prevRecordLogIndex < f.m_logIndex) → r.1 ≠ none := by
  obtain ⟨hok, hin⟩ := h.invariant hcfg
  refine ⟨fun a ha => (hin a ha).1, ?_⟩
  rintro e fuel r he happend ⟨f, hf, hlt⟩
  -- an outcome with the entry stored needs it to follow the last one
  cases hok.outcome he hcfg happend with
  | refused | moved | emptied => simp
  | stored hf' hprev | rotated hf' hprev =>
    cases hf.symm.trans hf'
    exact absurd hprev hlt.ne'

theorem first_in (l : ClusterLog) {leaderCommitIndex : Nat}
    (h : append .new 1 first (entry 0 leaderCommitIndex) = some (none, l)) :
    (Accepted.last l (entry 0 leaderCommitIndex)).In l := by
  have houtcome := first_ok.outcome (entry_proper (by decide)) (by decide) h
  rcases houtcome.grows_or first_ok (entry_proper (by decide)) with ⟨-, hlast⟩ | ⟨hfailed, -⟩
  · exact (hlast rfl).1
  · exact absurd rfl hfailed

/-- The first entry says that it is committed.  It comes again, and the file is emptied. -/
theorem committed_removed : ∃ l r, append .new 1 first (entry 0 1) = some (none, l) ∧
    append .new 2 l (entry 0 1) = some r ∧ (entry 0 1).logIndex.logIndex ≤ (entry 0 1).leaderCommitIndex ∧
    (Accepted.last l (entry 0 1)).In l ∧ ¬ (Accepted.last l (entry 0 1)).In r.2 := by
  obtain ⟨l, hl⟩ : ∃ l, append .new 1 first (entry 0 1) = some (none, l) := ⟨_, rfl⟩
  obtain ⟨r, hr, f, hf, hstream⟩ : ∃ r, append .new 2 l (entry 0 1) = some r ∧
      ∃ f, r.2.files[0]? = some f ∧ f.stream = [] := by
    cases hl
    exact ⟨_, rfl, _, rfl, rfl⟩
  refine ⟨l, r, hl, hr, le_rfl, first_in l hl, ?_⟩
  rintro ⟨g, hg, d, -, hprefix⟩
  have hfile : (Accepted.last l (entry 0 1)).file = 0 := by
    cases hl
    rfl
  rw [hfile, hf] at hg
  cases hg
  rw [hstream, List.prefix_nil, List.append_eq_nil_iff] at hprefix
  exact bytes_ne_nil hprefix.2

/-- An entry that says that it is committed, and the one behind it. -/
theorem committed_stay_two : ∃ l accepted, CommitRun .new l accepted 1 ∧
    (∃ a ∈ accepted, a.entry = entry 0 1) ∧ ∀ a ∈ accepted, a.In l := by
  obtain ⟨l₁, hl₁⟩ : ∃ l, append .new 1 first (entry 0 1) = some (none, l) := ⟨_, rfl⟩
  obtain ⟨l₂, hl₂, f, hf, hlast⟩ : ∃ l, append .new 1 l₁ (entry 1 0) = some (none, l) ∧
      ∃ f, l₁.current = some f ∧ f.m_logIndex = ⟨1, 1⟩ := by
    cases hl₁
    exact ⟨_, rfl, _, rfl, rfl⟩
  have hrun₁ := CommitRun.first.append (entry_proper (by decide)) (e := entry 0 1) (by
    rintro ⟨f, ⟨⟩, hlt, -⟩
    exact absurd hlt (by decide)) hl₁
  have hrun₂ := hrun₁.append (entry_proper (by decide)) (e := entry 1 0) (by
    rintro ⟨g, hg, hlt, -⟩
    cases hf.symm.trans hg
    rw [hlast] at hlt
    exact absurd hlt (by decide)) hl₂
  refine ⟨_, _, hrun₂, ⟨.last l₁ (entry 0 1), ⟨.inl ⟨.inr ⟨rfl, rfl⟩, .inr (first_in l₁ hl₁)⟩, ?_⟩, rfl⟩,
    (committed_stay (by decide) hrun₂).1⟩
  exact .inl (le_refl 1)

end DBStream.Native.CLUSTER.ClusterLog
