import DBStream.Spec.BlockContents

/-!
# The summary of a block

`append` counts the records and keeps the bounds of their log offsets and times.  After any run
they are a fold over the records appended (`Run.bounds`).  A lower bound is set while it is 0, so
that it is the one of the first record that is not 0: `summarizes_iff` says when it is the least.
-/

namespace DBStream.Native

/-- The first number that is not 0, as `append` finds a lower bound. -/
def firstSet (ts : List Nat) : Nat := (ts.find? (· ≠ 0)).getD 0

/-- `n` is a least element of `ts`. -/
def IsLeastOf (ts : List Nat) (n : Nat) : Prop := n ∈ ts ∧ ∀ t ∈ ts, n ≤ t

/-- `n` is a greatest element of `ts`. -/
def IsGreatestOf (ts : List Nat) (n : Nat) : Prop := n ∈ ts ∧ ∀ t ∈ ts, t ≤ n

theorem firstSet_cons (t : Nat) (ts : List Nat) :
    firstSet (t :: ts) = if t = 0 then firstSet ts else t := by
  unfold firstSet
  by_cases ht : t = 0
  · simp [ht]
  · simp [ht]

private theorem firstSet_eq_zero {ts : List Nat} : firstSet ts = 0 ↔ ∀ t ∈ ts, t = 0 := by
  induction ts with
  | nil => simp [firstSet]
  | cons t ts ih =>
    rw [firstSet_cons]
    by_cases ht : t = 0
    · simp [ht, ih]
    · simp [ht]

theorem firstSet_eq_head_iff (t : Nat) (ts : List Nat) :
    firstSet (t :: ts) = t ↔ (t = 0 → ∀ u ∈ ts, u = 0) := by
  rw [firstSet_cons]
  by_cases ht : t = 0
  · simp [ht, firstSet_eq_zero]
  · simp [ht]

theorem isLeastOf_firstSet_iff (t : Nat) (ts : List Nat) :
    IsLeastOf (t :: ts) (firstSet (t :: ts)) ↔
      (t = 0 → ∀ u ∈ ts, u = 0) ∧ ∀ u ∈ ts, t ≤ u := by
  rw [← firstSet_eq_head_iff]
  constructor
  · rintro ⟨hmem, hle⟩
    have hfirst := hle t (List.mem_cons_self ..)
    have heq : firstSet (t :: ts) = t := by
      rw [firstSet_cons] at hfirst ⊢
      split
      · next ht =>
        rw [if_pos ht] at hfirst
        omega
      · rfl
    exact ⟨heq, fun u hu => heq ▸ hle u (List.mem_cons_of_mem _ hu)⟩
  · rintro ⟨heq, hle⟩
    rw [heq]
    refine ⟨List.mem_cons_self .., fun u hu => ?_⟩
    rcases List.mem_cons.mp hu with rfl | hu
    · exact Nat.le_refl _
    · exact hle u hu

theorem isGreatestOf_foldl_max {ts : List Nat} (hne : ts ≠ []) :
    IsGreatestOf ts (ts.foldl max 0) := by
  have hgen : ∀ n, (ts.foldl max n ∈ ts ∨ ts.foldl max n = n) ∧ n ≤ ts.foldl max n ∧
      ∀ t ∈ ts, t ≤ ts.foldl max n := by
    clear hne
    induction ts with
    | nil => exact fun n => ⟨.inr rfl, Nat.le_refl n, fun t ht => nomatch ht⟩
    | cons t ts ih =>
      intro n
      obtain ⟨hmem, hle, hall⟩ := ih (max n t)
      refine ⟨?_, Nat.le_trans (Nat.le_max_left ..) hle, fun u hu => ?_⟩
      · rw [List.foldl_cons]
        rcases hmem with hmem | hmem
        · exact .inl (List.mem_cons_of_mem _ hmem)
        · rw [hmem]
          rcases Nat.le_total n t with hnt | htn
          · exact .inl (by rw [Nat.max_eq_right hnt]; exact List.mem_cons_self ..)
          · exact .inr (Nat.max_eq_left htn)
      · rcases List.mem_cons.mp hu with rfl | hu
        · exact Nat.le_trans (Nat.le_max_right ..) hle
        · exact hall u hu
  obtain ⟨hmem, -, hall⟩ := hgen 0
  refine ⟨?_, hall⟩
  rcases hmem with hmem | hzero
  · exact hmem
  · -- the greatest is 0, so every element is
    obtain ⟨t, ht⟩ := List.exists_mem_of_ne_nil ts hne
    have hle := hall t ht
    rw [hzero] at hle ⊢
    exact Nat.le_zero.mp hle ▸ ht

/-! ## The bounds that a block keeps -/

/-- The count and the bounds of a block. -/
structure Bounds where
  recordCount : Nat
  minLogOffset : Nat
  maxLogOffset : Nat
  minTime : Nat
  maxTime : Nat
  deriving DecidableEq

/-- The end of `append`, on the bounds. -/
def Bounds.accept (x : Bounds) (r : Record) : Bounds where
  recordCount := x.recordCount + 1
  minLogOffset := if x.minLogOffset = 0 then RecordHead.logOffset r.data else x.minLogOffset
  maxLogOffset := RecordHead.logOffset r.data
  minTime := if x.minTime = 0 then RecordHead.timestamp r.data else x.minTime
  maxTime := max x.maxTime (RecordHead.timestamp r.data)

def logOffsetsOf (acc : List Record) : List Nat := acc.map fun r => RecordHead.logOffset r.data

def timesOf (acc : List Record) : List Nat := acc.map fun r => RecordHead.timestamp r.data

theorem Bounds.foldl_accept (acc : List Record) (x : Bounds) :
    acc.foldl accept x = {
      recordCount := x.recordCount + acc.length
      minLogOffset := if x.minLogOffset = 0 then firstSet (logOffsetsOf acc) else x.minLogOffset
      maxLogOffset := (logOffsetsOf acc).getLast?.getD x.maxLogOffset
      minTime := if x.minTime = 0 then firstSet (timesOf acc) else x.minTime
      maxTime := (timesOf acc).foldl max x.maxTime } := by
  induction acc generalizing x with
  | nil =>
    obtain ⟨count, minOffset, maxOffset, minTime, maxTime⟩ := x
    simp [logOffsetsOf, timesOf, firstSet]
  | cons r acc ih =>
    have hset (n t : Nat) (ts : List Nat) :
        (if (if n = 0 then t else n) = 0 then firstSet ts else if n = 0 then t else n) =
          if n = 0 then firstSet (t :: ts) else n := by
      rw [firstSet_cons]
      by_cases hn : n = 0
      · simp [hn]
      · simp [hn]
    rw [List.foldl_cons, ih, Bounds.mk.injEq]
    refine ⟨?_, hset _ _ _, ?_, hset _ _ _, rfl⟩
    · show x.recordCount + 1 + acc.length = x.recordCount + (acc.length + 1)
      omega
    · show _ = (RecordHead.logOffset r.data :: logOffsetsOf acc).getLast?.getD _
      rw [List.getLast?_cons]
      rfl

namespace AppendingBlock

variable {I : IndexImpl} {Γ : MetaDataCollection I} {b b' b₀ : AppendingBlock I}
  {acc : List Record}

def bounds (b : AppendingBlock I) : Bounds where
  recordCount := b.m_recordCount
  minLogOffset := b.m_minLogOffset
  maxLogOffset := b.m_maxLogOffset
  minTime := b.m_minTime
  maxTime := b.m_maxTime

theorem step_bounds {op : Op} {s : AppendingBlockStaus} (h : b.step Γ op = .ok (s, b')) :
    b'.bounds = (accepted op s).foldl Bounds.accept b.bounds := by
  rcases step_cases h with ⟨rfl, rfl⟩ | ⟨b₁, hb₁, hcase⟩
  · cases op <;> rfl
  · have h₁ : b₁.bounds = b.bounds := by
      rcases getTableData_cases hb₁ with ⟨rfl, -⟩ | ⟨m, t, -, -, -, rfl⟩
      · rfl
      · rfl
    rcases hcase with ⟨rfl, rfl, -⟩ | ⟨b₂, hopened, t, slot, p, -, hend⟩
    · cases op <;> exact h₁
    · have h₂ : b₂.bounds = b.bounds := by
        cases hopened with
        | found => exact h₁
        | made t _ _ _ => exact h₁
      rcases hend with ⟨hnone, rfl | ⟨r, redo, -, rfl⟩⟩ | ⟨r, io, redo, tables, rfl, rfl, -, rfl⟩
      · rw [hnone]
        exact h₂
      · rw [hnone]
        exact h₂
      · show b₂.bounds.accept r = b.bounds.accept r
        rw [h₂]

theorem Run.bounds {P : AppendingBlock I → Op → AppendingBlockStaus → Prop}
    (h : Run Γ P b₀ b acc) : b.bounds = acc.foldl Bounds.accept b₀.bounds := by
  induction h with
  | nil => rfl
  | snoc _ _ call ih => rw [step_bounds call, ih, List.foldl_append]

section

variable {P : AppendingBlock I → Op → AppendingBlockStaus → Prop} {blockId : Nat}
  {flag : BlockFlag} {bufSize : Nat} {flushSize flushPeriod : Int} {startID : Nat}
  (h : Run Γ P (create blockId flag bufSize flushSize flushPeriod startID) b acc)

include h

theorem Run.bounds_eq : b.bounds = {
    recordCount := acc.length
    minLogOffset := firstSet (logOffsetsOf acc)
    maxLogOffset := (logOffsetsOf acc).getLast?.getD 0
    minTime := firstSet (timesOf acc)
    maxTime := (timesOf acc).foldl max 0 } := by
  rw [h.bounds, Bounds.foldl_accept, Bounds.mk.injEq]
  exact ⟨Nat.zero_add _, rfl, rfl, rfl, rfl⟩

theorem Run.recordCount : b.m_recordCount = acc.length := congrArg Bounds.recordCount h.bounds_eq

theorem Run.minLogOffset : b.m_minLogOffset = firstSet (logOffsetsOf acc) :=
  congrArg Bounds.minLogOffset h.bounds_eq

theorem Run.maxLogOffset : b.m_maxLogOffset = (logOffsetsOf acc).getLast?.getD 0 :=
  congrArg Bounds.maxLogOffset h.bounds_eq

theorem Run.minTime : b.m_minTime = firstSet (timesOf acc) := congrArg Bounds.minTime h.bounds_eq

theorem Run.maxTime : b.m_maxTime = (timesOf acc).foldl max 0 := congrArg Bounds.maxTime h.bounds_eq

end

private theorem maxLogOffset_le {r : Record} {io : RedoIo}
    (h : b.append Γ r io = .ok (.B_OK, b')) : b.m_maxLogOffset ≤ RecordHead.logOffset r.data := by
  unfold append at h
  split at h
  · cases h
  · omega

theorem accepted_eq (op : Op) (s : AppendingBlockStaus) :
    accepted op s = [] ∨ ∃ r io, op = .append r io ∧ s = .B_OK ∧ accepted op s = [r] := by
  cases op with
  | alloc tableId size => exact .inl rfl
  | append r io =>
    cases s with
    | B_OK => exact .inr ⟨r, io, rfl, rfl, rfl⟩
    | _ => exact .inl rfl

theorem Run.sorted {P : AppendingBlock I → Op → AppendingBlockStaus → Prop}
    (h : Run Γ P b₀ b acc) :
    (logOffsetsOf acc).Pairwise (· ≤ ·) ∧ ∀ o ∈ logOffsetsOf acc, o ≤ b.m_maxLogOffset := by
  induction h with
  | nil => exact ⟨.nil, fun o ho => nomatch ho⟩
  | @snoc b b' acc op s _ _ call ih =>
    obtain ⟨hsorted, hle⟩ := ih
    have hmax : b'.m_maxLogOffset =
        ((accepted op s).foldl Bounds.accept b.bounds).maxLogOffset :=
      congrArg Bounds.maxLogOffset (step_bounds call)
    rcases accepted_eq op s with hnone | ⟨r, io, rfl, rfl, hacc⟩
    · rw [hnone] at hmax ⊢
      rw [List.append_nil]
      exact ⟨hsorted, fun o ho => hmax ▸ hle o ho⟩
    · have hbehind := maxLogOffset_le call
      have hle' : ∀ o ∈ logOffsetsOf acc, o ≤ RecordHead.logOffset r.data :=
        fun o ho => Nat.le_trans (hle o ho) hbehind
      rw [logOffsetsOf, List.map_append, hmax]
      constructor
      · exact List.pairwise_append.mpr ⟨hsorted, List.pairwise_singleton .., fun o ho u hu =>
          (List.mem_singleton.mp hu) ▸ hle' o ho⟩
      · intro o ho
        rcases List.mem_append.mp ho with ho | ho
        · exact hle' o ho
        · exact Nat.le_of_eq (List.mem_singleton.mp ho)

/-! ## The summary -/

/-- The summary of a block is that of its records. -/
structure Summarizes (b : AppendingBlock I) (acc : List Record) : Prop where
  count : b.m_recordCount = acc.length
  sorted : (logOffsetsOf acc).Pairwise (· ≤ ·)
  minLogOffset : ∀ o ∈ (logOffsetsOf acc).head?, b.m_minLogOffset = o
  maxLogOffset : ∀ o ∈ (logOffsetsOf acc).getLast?, b.m_maxLogOffset = o
  minTime : acc ≠ [] → IsLeastOf (timesOf acc) b.m_minTime
  maxTime : acc ≠ [] → IsGreatestOf (timesOf acc) b.m_maxTime

/-- The first number is 0 only if all are. -/
def OpensSet (ts : List Nat) : Prop := ∀ t ∈ ts.head?, t = 0 → ∀ u ∈ ts, u = 0

/-- The first number is a least one. -/
def OpensLeast (ts : List Nat) : Prop := ∀ t ∈ ts.head?, ∀ u ∈ ts, t ≤ u

theorem opensSet_cons {t : Nat} {ts : List Nat} :
    OpensSet (t :: ts) ↔ (t = 0 → ∀ u ∈ ts, u = 0) := by
  simp only [OpensSet, List.head?_cons, Option.mem_some_iff, forall_eq', List.forall_mem_cons]
  exact ⟨fun h ht => (h ht).2, fun h ht => ⟨ht, h ht⟩⟩

theorem opensLeast_cons {t : Nat} {ts : List Nat} : OpensLeast (t :: ts) ↔ ∀ u ∈ ts, t ≤ u := by
  simp [OpensLeast]

/-- After any run of calls the summary is that of the records appended if and only if the first of
them has no log offset 0 and no time 0, unless all have, and no record has an earlier time. -/
theorem summarizes_iff {P : AppendingBlock I → Op → AppendingBlockStaus → Prop} {blockId : Nat}
    {flag : BlockFlag} {bufSize : Nat} {flushSize flushPeriod : Int} {startID : Nat}
    (hrun : Run Γ P (create blockId flag bufSize flushSize flushPeriod startID) b acc) :
    b.Summarizes acc ↔
      OpensSet (logOffsetsOf acc) ∧ OpensSet (timesOf acc) ∧ OpensLeast (timesOf acc) := by
  have hsorted := hrun.sorted.1
  have hmin := hrun.minLogOffset
  have hminTime := hrun.minTime
  have hlast : ∀ o ∈ (logOffsetsOf acc).getLast?, b.m_maxLogOffset = o := by
    intro o ho
    rw [hrun.maxLogOffset, Option.mem_def.mp ho]
    rfl
  cases acc with
  | nil =>
    have hnone {α : Type} {p : α → Prop} : ∀ a ∈ (none : Option α), p a := fun _ ha => nomatch ha
    exact ⟨fun _ => ⟨hnone, hnone, hnone⟩, fun _ => ⟨hrun.recordCount, hsorted, hnone, hlast,
      fun hne => absurd rfl hne, fun hne => absurd rfl hne⟩⟩
  | cons r acc =>
    have hne : timesOf (r :: acc) ≠ [] := List.cons_ne_nil _ _
    rw [logOffsetsOf, timesOf, List.map_cons, List.map_cons, opensSet_cons, opensSet_cons, opensLeast_cons,
      ← firstSet_eq_head_iff, ← isLeastOf_firstSet_iff]
    constructor
    · intro h
      exact ⟨hmin ▸ h.minLogOffset _ rfl, hminTime ▸ h.minTime (List.cons_ne_nil _ _)⟩
    · rintro ⟨hfirst, htime⟩
      refine ⟨hrun.recordCount, hsorted, ?_, hlast, fun _ => hminTime ▸ htime,
        fun _ => hrun.maxTime ▸ isGreatestOf_foldl_max hne⟩
      intro o ho
      cases ho
      exact hmin.trans hfirst

/-! ## Runs of two records -/

/-- A DDL record with a log offset and a time. -/
def loggedRecord (logOffset timestamp : Nat) : Record :=
  .build 5 logOffset timestamp 0 (List.replicate 12 0) (by decide)

private theorem run_loggedRecords (o₁ t₁ o₂ t₂ : Nat)
    (h : (exec noTables (fun _ _ _ => true)
      [.append (loggedRecord o₁ t₁) quietIo, .append (loggedRecord o₂ t₂) quietIo]
      (create 1 { appending := true } (2 ^ 20) 0 0 0, []) >>= fun x => .ok x.2.length) = .ok 2) :
    ∃ b : AppendingBlock noIndex, Run noTables (fun _ _ _ => True)
      (create 1 { appending := true } (2 ^ 20) 0 0 0) b [loggedRecord o₁ t₁, loggedRecord o₂ t₂] := by
  obtain ⟨⟨b, acc⟩, hexec, hlen⟩ := Exec.of_bind h
  have hrun := run_of_exec (P := fun _ _ _ => True) (fun _ _ _ _ _ => trivial) .nil hexec
  obtain ⟨⟨s₁, b₁⟩, hstep₁, hexec⟩ := Exec.of_bind hexec
  obtain ⟨⟨s₂, b₂⟩, hstep₂, hexec⟩ := Exec.of_bind hexec
  cases hexec
  refine ⟨b, ?_⟩
  -- two records are there only if both calls have succeeded
  cases s₁ <;> cases s₂ <;> first | exact hrun | cases hlen

/-- With times that go up the summary is right. -/
theorem summarizes_iff_ascending : ∃ b : AppendingBlock noIndex,
    Run noTables (fun _ _ _ => True) (create 1 { appending := true } (2 ^ 20) 0 0 0) b
      [loggedRecord 10 3, loggedRecord 20 5] ∧
    b.Summarizes [loggedRecord 10 3, loggedRecord 20 5] := by
  obtain ⟨b, hrun⟩ := run_loggedRecords 10 3 20 5 rfl
  refine ⟨b, hrun, (summarizes_iff hrun).mpr ⟨?_, ?_, ?_⟩⟩
  · exact opensSet_cons.mpr (by decide)
  · exact opensSet_cons.mpr (by decide)
  · exact opensLeast_cons.mpr (by decide)

/-- After two records the summary of the block is not that of the records. -/
def Missummarized (o₁ t₁ o₂ t₂ : Nat) : Prop :=
  ∃ b : AppendingBlock noIndex,
    Run noTables (fun _ _ _ => True) (create 1 { appending := true } (2 ^ 20) 0 0 0) b
      [loggedRecord o₁ t₁, loggedRecord o₂ t₂] ∧
    ¬b.Summarizes [loggedRecord o₁ t₁, loggedRecord o₂ t₂]

/-- The second record is older, it has the first log offset that is not 0, or the first time. -/
theorem not_summarizes :
    Missummarized 10 5 20 3 ∧ Missummarized 0 3 7 5 ∧ Missummarized 10 0 20 5 := by
  refine ⟨?_, ?_, ?_⟩
  · obtain ⟨b, hrun⟩ := run_loggedRecords 10 5 20 3 rfl
    refine ⟨b, hrun, fun h => ?_⟩
    have htime := (h.minTime (List.cons_ne_nil _ _)).2
    rw [hrun.minTime] at htime
    exact absurd htime (by decide)
  · obtain ⟨b, hrun⟩ := run_loggedRecords 0 3 7 5 rfl
    refine ⟨b, hrun, fun h => ?_⟩
    have hoffset := h.minLogOffset _ rfl
    rw [hrun.minLogOffset] at hoffset
    exact absurd hoffset (by decide)
  · obtain ⟨b, hrun⟩ := run_loggedRecords 10 0 20 5 rfl
    refine ⟨b, hrun, fun h => ?_⟩
    have htime := (h.minTime (List.cons_ne_nil _ _)).2
    rw [hrun.minTime] at htime
    exact absurd htime (by decide)

end AppendingBlock

end DBStream.Native
