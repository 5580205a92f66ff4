import DBStream.Native.ClusterLogIterator
import DBStream.Spec.ClusterLogCommits

/-!
# Finding the file of a log index

`find` gives the current file for every index from its first one on.  For an earlier index it takes
`lower_bound` in `m_files`, which has the first indexes of the files: that is the file that begins at
the index or the next one, and the next one is refused.
-/

namespace DBStream.Native.CLUSTER.ClusterLog

open LogFile

variable {l l' : ClusterLog} {cfg : LogConfig} {e : LogEntryRpcBase} {f f' g : LogFile}
  {a : Accepted} {i : Nat}

/-! ## Where an entry is -/

/-- The index of the entry is one of its file, and the later files begin behind it. -/
structure Accepted.Placed (a : Accepted) (l : ClusterLog) : Prop where
  within : a.Within l
  behind : ∀ k g, a.file < k → l.files[k]? = some g → a.entry.logIndex < g.m_beginLogIndex

namespace Accepted.Placed

theorem of_files (h : a.Placed l) (heq : l'.files = l.files) : a.Placed l' := by
  obtain ⟨⟨f, hf, hwithin⟩, hbehind⟩ := h
  rw [← heq] at hf hbehind
  exact ⟨⟨f, hf, hwithin⟩, hbehind⟩

theorem setFile (h : a.Placed l) (hf : l.files[i]? = some f)
    (hbegin : f'.m_beginLogIndex = f.m_beginLogIndex) (hle : f.m_logIndex ≤ f'.m_logIndex) :
    a.Placed (l.setFile i f') := by
  obtain ⟨⟨g, hg, hge, hlast⟩, hbehind⟩ := h
  constructor
  case within =>
    by_cases hi : a.file = i
    · subst hi
      cases hf.symm.trans hg
      have hlt := (List.getElem?_eq_some_iff.mp hf).1
      exact ⟨f', List.getElem?_set_self hlt, hbegin.trans_le hge, hlast.trans hle⟩
    · refine ⟨g, ?_, hge, hlast⟩
      rw [ClusterLog.setFile, List.getElem?_set_ne (Ne.symm hi)]
      exact hg
  case behind =>
    intro k c hk hc
    rcases getElem?_set_cases hc with ⟨rfl, rfl⟩ | ⟨-, hc⟩
    · rw [hbegin]
      exact hbehind k f hk hf
    · exact hbehind k c hk hc

theorem concat (h : a.Placed l) (hfiles : l'.files = l.files ++ [g])
    (hlt : a.entry.logIndex < g.m_beginLogIndex) : a.Placed l' := by
  obtain ⟨⟨f, hf, hwithin⟩, hbehind⟩ := h
  have hlength := (List.getElem?_eq_some_iff.mp hf).1
  constructor
  case within =>
    refine ⟨f, ?_, hwithin⟩
    rw [hfiles, List.getElem?_append_left hlength]
    exact hf
  case behind =>
    intro k c hk hc
    rw [hfiles] at hc
    by_cases hold : k < l.files.length
    · rw [List.getElem?_append_left hold] at hc
      exact hbehind k c hk hc
    · rw [List.getElem?_append_right (Nat.not_lt.mp hold)] at hc
      rwa [List.mem_singleton.mp (List.mem_of_getElem? hc)]

theorem le_last (h : a.Placed l) (hok : l.Ok) (hf : l.current = some f) (hfinish : f.CanFinish) :
    a.entry.logIndex ≤ f.m_logIndex := by
  have hlast := hok.last_of_canFinish hf hfinish
  obtain ⟨blocks, hopen⟩ := hok.opened hlast f hf
  have hne : blocks ≠ [] := by
    rintro rfl
    obtain ⟨p, hp, -⟩ := hfinish
    rw [hopen.currentBlock_nil] at hp
    cases hp
  obtain ⟨⟨g, hg, -, hle⟩, hbehind⟩ := h
  have hlt := (List.getElem?_eq_some_iff.mp hg).1
  rcases Nat.lt_or_eq_of_le (show a.file ≤ l.m_currentLogFile by omega) with hfile | hfile
  · exact ((hbehind _ f hfile hf).trans_le (hopen.begin_le hne)).le
  · rw [hfile] at hg
    rwa [Option.some.inj (hf.symm.trans hg)]

theorem of_outcome {r : Option ErrorCode × ClusterLog} (h : a.Placed l) (hok : l.Ok) (he : e.Proper)
    (hr : l.Outcome e r) : a.Placed r.2 := by
  cases hr with
  | refused => exact h
  | moved _ hmoved =>
    obtain ⟨-, -, hg, hended, -, rfl⟩ := hmoved
    exact (h.setFile hg hended.frame.begin_eq hended.logIndex.ge).of_files rfl
  | stored hf hprev hlast hstores =>
    have hlt := he.prev_lt
    rw [← hprev, ← hstores.logIndex] at hlt
    exact (h.setFile hf hstores.frame.begin_eq hlt.le).of_files (accept_files _ e).1
  | @rotated f f' g hf hprev hfinish hended hclosed hstores =>
    have hset := h.setFile hf hended.frame.begin_eq hended.logIndex.ge
    have hbehind : a.entry.logIndex < g.m_beginLogIndex := by
      rw [hstores.frame.begin_eq]
      exact (h.le_last hok hf hfinish).trans_lt (hprev ▸ he.prev_lt)
    have hplaced : a.Placed ((l.rotated f f' e.logIndex).setFile l.files.length g) :=
      hset.concat (by simp [ClusterLog.rotated, ClusterLog.setFile]) hbehind
    exact hplaced.of_files (accept_files _ e).1
  | @emptied _ f f' hemptied =>
    obtain ⟨-, blocks, -, hcases⟩ := hok.emptied_cases hemptied
    have hsame : f'.m_beginLogIndex = f.m_beginLogIndex ∧ f'.m_logIndex = f.m_logIndex := by
      rcases hcases with rfl | ⟨-, -, -, hcut⟩
      · exact ⟨rfl, rfl⟩
      · -- a cut leaves both indexes of the file as they were
        rw [hcut.same]
        exact ⟨rfl, rfl⟩
    have hplaced : a.Placed (l.setFile _ { f' with m_next := none }) :=
      h.setFile hemptied.current hsame.1 hsame.2.ge
    exact hplaced.of_files rfl

end Accepted.Placed

/-! ## `m_files` -/

theorem sorted_of_outcome {r : Option ErrorCode × ClusterLog} (hr : l.Outcome e r)
    (h : SortedEntries.Sorted l.m_files) : SortedEntries.Sorted r.2.m_files := by
  have haccept : ∀ l : ClusterLog, (l.accept e).2.m_files = l.m_files := by
    intro l
    obtain ⟨code, i, heq⟩ := accept_eq l e
    rw [heq]
  cases hr with
  | refused => exact h
  | moved _ hmoved =>
    rw [hmoved.eq]
    exact h
  | stored =>
    rw [haccept]
    exact h
  | rotated =>
    rw [haccept]
    exact h.insert _ _
  | emptied => exact List.Pairwise.filter _ h

/-! ## `find` -/

private theorem find_of_current_le (h : l.Ok) (hfiles : l.m_files ≠ []) (ha : a.Placed l)
    (hle : l.m_currentLogFile ≤ a.file) :
    l.find a.entry.logIndex = some (some l.m_currentLogFile) := by
  obtain ⟨f, hf⟩ := h.current_eq
  obtain ⟨⟨g, hg, hge, -⟩, -⟩ := ha
  apply find_of_le hf hfiles
  rcases Nat.lt_or_eq_of_le hle with hlt | heq
  · exact (h.begins _ _ f g hlt hf hg).le.trans hge
  · rw [← heq] at hg
    rwa [Option.some.inj (hf.symm.trans hg)]

private theorem find_of_mem (h : l.Ok) (hsorted : SortedEntries.Sorted l.m_files) (ha : a.Placed l)
    (hlt : a.file < l.m_currentLogFile) (hmem : (a.entry.logIndex, a.file) ∈ l.m_files) :
    l.find a.entry.logIndex = some (some a.file) := by
  obtain ⟨f, hf⟩ := h.current_eq
  obtain ⟨g, hg, hbegin⟩ := h.keys _ hmem
  have hbefore : ¬ f.m_beginLogIndex ≤ a.entry.logIndex := not_le.mpr (ha.behind _ f hlt hf)
  have hlower := SortedEntries.find?_le_of_mem hsorted hmem
  simp only [ClusterLog.find, if_neg (List.ne_nil_of_mem hmem), hf, Option.bind_eq_bind,
    Option.bind_some, if_neg hbefore, hlower]
  rw [hg, Option.bind_some, if_neg (by rw [hbegin]; exact lt_irrefl _)]
  rfl

theorem find_of_not_mem (h : l.Ok) (ha : a.Placed l) (hlt : a.file < l.m_currentLogFile)
    (hmem : (a.entry.logIndex, a.file) ∉ l.m_files) : l.find a.entry.logIndex = some none := by
  obtain ⟨f, hf⟩ := h.current_eq
  by_cases hfiles : l.m_files = []
  · exact if_pos hfiles
  have hbefore : ¬ f.m_beginLogIndex ≤ a.entry.logIndex := not_le.mpr (ha.behind _ f hlt hf)
  simp only [ClusterLog.find, if_neg hfiles, hf, Option.bind_eq_bind, Option.bind_some,
    if_neg hbefore]
  cases hlower : l.m_files.find? fun p => a.entry.logIndex ≤ p.1 with
  | none => rfl
  | some p =>
    obtain ⟨g, hg, hbegin⟩ := h.keys p (List.mem_of_find?_eq_some hlower)
    have hle : a.entry.logIndex ≤ p.1 := by simpa using List.find?_some hlower
    simp only [hg, Option.bind_some]
    by_cases hgt : g.m_beginLogIndex > a.entry.logIndex
    · exact if_pos hgt
    · -- a file that begins at the index is the one that has it
      have heq : p.1 = a.entry.logIndex := le_antisymm (hbegin ▸ not_lt.mp hgt) hle
      obtain ⟨⟨c, hc, hge, -⟩, hbehind⟩ := ha
      rcases Nat.lt_trichotomy p.2 a.file with hp | hp | hp
      · have hbegins := h.begins _ _ g c hp hg hc
        rw [hbegin, heq] at hbegins
        exact absurd hge (not_le.mpr hbegins)
      · refine absurd ?_ hmem
        rw [← heq, ← hp]
        exact List.mem_of_find?_eq_some hlower
      · have hbehind := hbehind _ g hp hg
        exact absurd hbehind (not_lt.mpr (not_lt.mp hgt))

/-! ## Runs -/

/-- The entries that are in a log after an `append`. -/
def nextStored (stored : Set Accepted) (l : ClusterLog) (e : LogEntryRpcBase)
    (r : Option ErrorCode × ClusterLog) : Set Accepted :=
  { a | (a ∈ stored ∨ (∃ f ∈ l.current, f.m_logIndex = e.prevRecordLogIndex) ∧ a = .last r.2 e) ∧
    a.In r.2 }

/-- A run, with the entries that are in the log. -/
inductive StoreRun (cfg : LogConfig) : ClusterLog → Set Accepted → Prop
  | first : StoreRun cfg first ∅
  | append {l : ClusterLog} {stored : Set Accepted} {e : LogEntryRpcBase} {fuel : Nat}
      {r : Option ErrorCode × ClusterLog} (h : StoreRun cfg l stored) (he : e.Proper)
      (happend : append cfg fuel l e = some r) : StoreRun cfg r.2 (nextStored stored l e r)

theorem Ok.last_placed {r : Option ErrorCode × ClusterLog} {fuel : Nat} (h : l.Ok) (he : e.Proper)
    (hcfg : cfg.m_defaultLogFileSize ≤ 2 ^ 31) (hf : l.current = some f)
    (hprev : f.m_logIndex = e.prevRecordLogIndex) (happend : append cfg fuel l e = some r) :
    (Accepted.last r.2 e).In r.2 ∧ (Accepted.last r.2 e).Placed r.2 := by
  -- no file is behind the current one
  have hplaced : ∀ l : ClusterLog, l.m_currentLogFile + 1 = l.files.length →
      (∃ f f' : LogFile, l.current = some f' ∧ f.Stores f' e) →
      (Accepted.last (l.accept e).2 e).In (l.accept e).2 ∧
        (Accepted.last (l.accept e).2 e).Placed (l.accept e).2 := by
    rintro l hlast ⟨f, f', hf', hstores⟩
    obtain ⟨hin, hwithin⟩ := last_accept (last_of_stores hf' hstores)
    refine ⟨hin, hwithin, ?_⟩
    intro k g hk hg
    have hlt := (List.getElem?_eq_some_iff.mp hg).1
    obtain ⟨hfiles, hcurrent⟩ := accept_files l e
    rw [hfiles] at hlt
    have hfile : (Accepted.last (l.accept e).2 e).file = l.m_currentLogFile := hcurrent
    omega
  rcases h.outcome_of_eq he hcfg hf hprev happend with
    ⟨f', hlast, -, hstores, rfl⟩ | ⟨f', g, -, -, -, -, -, hstores, rfl⟩
  · refine hplaced _ (hlast.trans List.length_set.symm) ⟨f, f', ?_, hstores⟩
    simp [current, ClusterLog.setFile, h.current_lt]
  · refine hplaced _ ?_ ⟨_, g, ?_, hstores⟩
    all_goals simp [current, ClusterLog.setFile, ClusterLog.rotated]

theorem StoreRun.invariant {stored : Set Accepted} (h : StoreRun cfg l stored)
    (hcfg : cfg.m_defaultLogFileSize ≤ 2 ^ 31) :
    l.Ok ∧ SortedEntries.Sorted l.m_files ∧ ∀ a ∈ stored, a.In l ∧ a.Placed l := by
  induction h with
  | first => exact ⟨first_ok, List.pairwise_singleton _ _, fun a ha => by cases ha⟩
  | append _ he happend ih =>
    obtain ⟨hok, hsorted, hstored⟩ := ih
    have houtcome := hok.outcome he hcfg happend
    refine ⟨hok.of_outcome he houtcome, sorted_of_outcome houtcome hsorted, ?_⟩
    rintro a ⟨ha, hin⟩
    refine ⟨hin, ?_⟩
    rcases ha with ha | ⟨⟨f, hf, hprev⟩, rfl⟩
    · exact (hstored a ha).2.of_outcome hok he houtcome
    · exact (hok.last_placed he hcfg hf hprev happend).2

/-- In every log of a run, `find` gives the file of a stored entry if this is the current one or begins
    at the entry.  It gives none for any other entry of an earlier file, and `seek` fails. -/
theorem find_stored (hcfg : cfg.m_defaultLogFileSize ≤ 2 ^ 31) {stored : Set Accepted}
    (h : StoreRun cfg l stored) (ha : a ∈ stored) :
    a.In l ∧
    (l.find a.entry.logIndex = some (some a.file) ↔ l.m_files ≠ [] ∧
      (a.file = l.m_currentLogFile ∨
        a.file < l.m_currentLogFile ∧ (a.entry.logIndex, a.file) ∈ l.m_files)) ∧
    (a.file < l.m_currentLogFile → (a.entry.logIndex, a.file) ∉ l.m_files →
      l.find a.entry.logIndex = some none ∧ ∀ junk fuel,
        Iterator.seek l cfg junk fuel a.entry.logIndex = some (.error .logIndexNotFound)) := by
  obtain ⟨hok, hsorted, hstored⟩ := h.invariant hcfg
  obtain ⟨hin, hplaced⟩ := hstored a ha
  refine ⟨hin, ?_, ?_⟩
  · by_cases hfiles : l.m_files = []
    · simp [ClusterLog.find, hfiles]
    · rcases Nat.lt_or_ge a.file l.m_currentLogFile with hlt | hge
      · by_cases hmem : (a.entry.logIndex, a.file) ∈ l.m_files
        · exact iff_of_true (find_of_mem hok hsorted hplaced hlt hmem) ⟨hfiles, .inr ⟨hlt, hmem⟩⟩
        · rw [find_of_not_mem hok hplaced hlt hmem]
          simp [hmem, hlt.ne]
      · rw [find_of_current_le hok hfiles hplaced hge]
        simp [hfiles, hge.not_gt, eq_comm]
  · intro hlt hmem
    have hnone := find_of_not_mem hok hplaced hlt hmem
    refine ⟨hnone, fun junk fuel => ?_⟩
    simp [Iterator.seek, hnone]

/-- An append that succeeds has stored the entry, and keeps the others. -/
theorem Ok.stored_of_succeeded {stored : Set Accepted} {fuel : Nat} (h : l.Ok) (he : e.Proper)
    (hcfg : cfg.m_defaultLogFileSize ≤ 2 ^ 31) (hin : ∀ a ∈ stored, a.In l)
    (happend : append cfg fuel l e = some (none, l')) :
    stored ⊆ nextStored stored l e (none, l') ∧ .last l' e ∈ nextStored stored l e (none, l') := by
  have houtcome := h.outcome he hcfg happend
  have hprev : ∃ f ∈ l.current, f.m_logIndex = e.prevRecordLogIndex := by
    generalize hr : (none, l') = r at houtcome
    cases houtcome with
    | refused | moved | emptied => cases hr
    | stored hf hprev | rotated hf hprev => exact ⟨_, hf, hprev⟩
  obtain ⟨hgrows, hlast⟩ : l.Grows l' ∧ (Accepted.last l' e).In l' := by
    rcases houtcome.grows_or h he with ⟨hgrows, hlast⟩ | ⟨hfailed, -⟩
    · exact ⟨hgrows, (hlast rfl).1⟩
    · exact absurd rfl hfailed
  exact ⟨fun a ha => ⟨.inl ha, (hin a ha).grows hgrows⟩, .inr ⟨hprev, rfl⟩, hlast⟩

theorem StoreRun.appendAll {stored : Set Accepted} {fuel : Nat} {es : List LogEntryRpcBase}
    (h : StoreRun cfg l stored) (hcfg : cfg.m_defaultLogFileSize ≤ 2 ^ 31) (hes : ∀ e ∈ es, e.Proper)
    (happend : ClusterLog.appendAll cfg fuel l es = some l') :
    ∃ stored', StoreRun cfg l' stored' ∧ stored ⊆ stored' ∧ ∀ e ∈ es, ∃ a ∈ stored', a.entry = e := by
  induction es generalizing l stored with
  | nil =>
    cases happend
    exact ⟨stored, h, subset_rfl, fun e he => by cases he⟩
  | cons e es ih =>
    obtain ⟨⟨code, l₁⟩, hstep, happend⟩ := Option.bind_eq_some_iff.mp happend
    cases code with
    | some code => cases happend
    | none =>
      have he := hes e (List.mem_cons_self ..)
      obtain ⟨hok, -, hstored⟩ := h.invariant hcfg
      obtain ⟨hold, hnew⟩ := hok.stored_of_succeeded he hcfg (fun a ha => (hstored a ha).1) hstep
      obtain ⟨stored', hrun, hsub, hall⟩ :=
        ih (h.append he hstep) (fun e he => hes e (List.mem_cons_of_mem _ he)) happend
      refine ⟨stored', hrun, hold.trans hsub, ?_⟩
      intro x hx
      rcases List.mem_cons.mp hx with rfl | hx
      · exact ⟨_, hsub hnew, rfl⟩
      · exact hall x hx

theorem Accepted.Placed.file_lt {g : LogFile} (h : a.Placed l) (hok : l.Ok) (hg : l.files[i]? = some g)
    (hlt : a.entry.logIndex < g.m_beginLogIndex) : a.file < i := by
  obtain ⟨⟨f, hf, hge, -⟩, -⟩ := h
  by_contra hle
  rcases Nat.lt_or_eq_of_le (Nat.not_lt.mp hle) with hi | rfl
  · exact absurd (hge.trans_lt hlt) (hok.begins i _ g f hi hg hf).not_gt
  · cases hf.symm.trans hg
    exact absurd hge (not_le.mpr hlt)

/-- The second entry of the first file is not found any more. -/
theorem stored_not_found : ∃ l stored a, StoreRun ⟨100, 150⟩ l stored ∧ a ∈ stored ∧ a.In l ∧
    a.entry = entry 1 0 ∧ l.find ⟨1, 2⟩ = some none ∧
    Iterator.seek l ⟨100, 150⟩ (fun _ => 0) 10 ⟨1, 2⟩ = some (.error .logIndexNotFound) := by
  obtain ⟨l, hl, f, hf, hbegin, hcurrent, hfiles⟩ :
      ∃ l, appendAll ⟨100, 150⟩ 2 first [entry 0 0, entry 1 0, entry 2 0] = some l ∧
        ∃ f, l.files[1]? = some f ∧ f.m_beginLogIndex = ⟨1, 3⟩ ∧ l.m_currentLogFile = 1 ∧
          l.m_files = [(⟨1, 1⟩, 0), (⟨1, 3⟩, 1)] := ⟨_, rfl, _, rfl, rfl, rfl, rfl⟩
  have hproper : ∀ e ∈ [entry 0 0, entry 1 0, entry 2 0], e.Proper := by
    simp only [List.forall_mem_cons]
    exact ⟨entry_proper (by decide), entry_proper (by decide), entry_proper (by decide), by simp⟩
  obtain ⟨stored, hrun, -, hall⟩ := StoreRun.first.appendAll (by decide) hproper hl
  obtain ⟨a, ha, hentry⟩ := hall (entry 1 0) (by simp)
  obtain ⟨hok, -, hstored⟩ := hrun.invariant (by decide)
  obtain ⟨hin, hplaced⟩ := hstored a ha
  have hfile := hplaced.file_lt hok hf (by rw [hentry, hbegin]; decide)
  have hfind := find_of_not_mem hok hplaced (by omega)
    (by rw [hfiles, hentry, Nat.lt_one_iff.mp hfile]; decide)
  rw [hentry] at hfind
  refine ⟨l, stored, a, hrun, ha, hin, hentry, hfind, ?_⟩
  exact congrArg (Option.bind · _) hfind

end DBStream.Native.CLUSTER.ClusterLog
