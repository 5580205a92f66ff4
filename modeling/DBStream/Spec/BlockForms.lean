import DBStream.Spec.RecordIteration

/-!
# The two forms of a finished block

A block of row changes and the solid block it is converted to hold the same records, so a client
should not see which of them it goes through.  `scansAlike_iff` says for which iterators that is
so.
-/

namespace DBStream.Native

open AppendingBlock

/-- From both forms an iterator gives the records its filter accepts, in its direction. -/
def ScansAlike {I : IndexImpl} (b : AppendingBlock I) (s : SolidBlock) (flag : Nat)
    (filter : Option RecordFilter) (itA : AppendingBlockIterator) (itS : SolidBlockIterator)
    (acc : List Record) : Prop :=
  let accepted := acceptedRows filter b.m_minRecordId acc
  let rows := if increase flag then accepted else accepted.reverse
  (appendingBlockIterator b flag (filter.map RecordFilter.toFilter)).scan (b.m_recordCount + 2)
    itA = .ok rows ∧
  (solidBlockIterator s flag (filter.map RecordFilter.toFilter)).scan (s.head.m_recordCount + 2)
    itS = .ok rows

/-- Without a filter, an iterator goes up, or there is nothing to go through.  With one, it goes up
    through a block with records whose first id is 0, and begins well on the solid block. -/
def CanScan (flag : Nat) (filter : Option RecordFilter) (status : IterStatus) (minRecordId : Nat)
    (acc : List Record) : Prop :=
  match filter with
  | none => increase flag = true ∨ acc = []
  | some f => increase flag = true ∧ minRecordId = 0 ∧ acc ≠ [] ∧ f.Begins status acc

section

variable {I : IndexImpl} {Γ : MetaDataCollection I} {b : AppendingBlock I} {acc : List Record}
  {s : SolidBlock} {flag : Nat}

theorem scansAlike_noFilter (hb : b.HasRecords acc) (hs : s.HasRecords Γ b acc) (flag : Nat)
    (itA : AppendingBlockIterator) (itS : SolidBlockIterator) :
    ScansAlike b s flag none itA itS acc ↔ increase flag = true ∨ acc = [] := by
  unfold ScansAlike
  by_cases hflag : increase flag = true
  · simp only [hflag, if_true, true_or, iff_true]
    exact ⟨appending_scan_eq hb hflag (.inl rfl) itA, solid_scan_all hs hflag itS⟩
  simp only [hflag, Bool.false_eq_true, if_false, false_or]
  constructor
  · rintro ⟨hscan, -⟩
    by_contra hne
    rw [show Option.map RecordFilter.toFilter none = none from rfl,
      appending_scan_descending hb hflag hne _ (Nat.zero_lt_succ _) itA] at hscan
    cases hscan
  · rintro rfl
    exact ⟨appending_scan_empty hb hflag _ (Nat.zero_lt_succ _) itA,
      solid_scan_descending hs hflag itS⟩

theorem scansAlike_filter (hb : b.HasRecords acc) (hs : s.HasRecords Γ b acc) (flag : Nat)
    (f : RecordFilter) (itA : AppendingBlockIterator) (itS : SolidBlockIterator) :
    ScansAlike b s flag (some f) itA itS acc ↔
      increase flag = true ∧ b.m_minRecordId = 0 ∧ acc ≠ [] ∧ f.Begins itS.m_status acc := by
  unfold ScansAlike
  constructor
  · rintro ⟨hscanA, hscanS⟩
    -- the scan of the solid block does not leave the infos
    have hinside : ¬ (increase flag ≠ true ∨ acc = []) := by
      intro h
      rw [show Option.map RecordFilter.toFilter (some f) = some f.toFilter from rfl,
        solid_scan_outside hs f.toFilter h _ itS] at hscanS
      cases hscanS
    have hflag : increase flag = true := by
      by_contra h
      exact hinside (.inl h)
    have hne : acc ≠ [] := fun h => hinside (.inr h)
    have hmin : b.m_minRecordId = 0 := by
      by_contra h
      rw [show Option.map RecordFilter.toFilter (some f) = some f.toFilter from rfl,
        appending_scan_ids f.toFilter hflag h _ itA] at hscanA
      cases hscanA
    simp only [hflag, if_true] at hscanS
    exact ⟨hflag, hmin, hne,
      (solid_scan_iff hs hflag f (List.length_pos_of_ne_nil hne) itS).mp hscanS⟩
  · rintro ⟨hflag, hmin, hne, hbegins⟩
    simp only [hflag, if_true]
    exact ⟨appending_scan_eq hb hflag (.inr ⟨hmin, hne⟩) itA,
      (solid_scan_iff hs hflag f (List.length_pos_of_ne_nil hne) itS).mpr hbegins⟩

end

section

variable {I : IndexImpl} {Γ : MetaDataCollection I} {b : AppendingBlock I} {acc : List Record}
  {blockId bufSize startID : Nat} {flag₀ : BlockFlag} {flushSize flushPeriod : Int}

theorem hasRecords_of_run
    (hrun : Run Γ (RowOp Γ) (create blockId flag₀ bufSize flushSize flushPeriod startID) b acc) :
    b.finish.HasRecords acc := by
  have hl₀ := layout_create Γ blockId flag₀ bufSize flushSize flushPeriod startID
  have hc := hrun.contents hl₀ (contents_create Γ RecordPosition.Fits blockId flag₀ bufSize
    flushSize flushPeriod startID) fun _ _ h => RowOp.landsIn h
  have hsize : b.m_recordCount ≤ maxRecordInBlock := hrun.recordCount_le (Nat.zero_le _)
  exact {
    count := hc.count
    size := hsize
    finished := rfl
    getRecord := fun _ _ hr => hc.getRecord (hrun.layout hl₀) hr
    getRecordByIdx := fun _ _ hr => hc.getRecordByIdx hr }

theorem solid_hasRecords_of_run {s : SolidBlock}
    (hrun : Run Γ (RowOp Γ) (create blockId flag₀ bufSize flushSize flushPeriod startID) b acc)
    (hs : b.finish.toSolidBlock = .ok s) : s.HasRecords Γ b.finish acc := by
  have hb := hasRecords_of_run hrun
  obtain ⟨hpreserved, hinfos⟩ := preserved_of_toSolidBlock hrun hs
  exact {
    head := toSolidBlock_head hs
    count := hb.count
    size := hb.size
    infos := hinfos
    preserved := hpreserved }

end

/-- In every run whose records are row changes on addressable places: from a finished block and
    from the solid block it is converted to, `begin` and `next` give the records the filter accepts,
    each once and in the direction of the iterator, exactly when the iterator can scan. -/
theorem scansAlike_iff {I : IndexImpl} (Γ : MetaDataCollection I) (blockId : Nat)
    (flag₀ : BlockFlag) (bufSize : Nat) (flushSize flushPeriod : Int) (startID : Nat)
    {b : AppendingBlock I} {acc : List Record}
    (hrun : Run Γ (RowOp Γ) (create blockId flag₀ bufSize flushSize flushPeriod startID) b acc)
    {s : SolidBlock} (hs : b.finish.toSolidBlock = .ok s) (flag : Nat)
    (filter : Option RecordFilter) (itA : AppendingBlockIterator) (itS : SolidBlockIterator) :
    ScansAlike b.finish s flag filter itA itS acc ↔
      CanScan flag filter itS.m_status b.m_minRecordId acc := by
  have hb := hasRecords_of_run hrun
  have hsolid := solid_hasRecords_of_run hrun hs
  cases filter with
  | none => exact scansAlike_noFilter hb hsolid flag itA itS
  | some f => exact scansAlike_filter hb hsolid flag f itA itS

private theorem run_oneRow :
    ∃ b : AppendingBlock noIndex, ∃ s, Run twoTables (RowOp twoTables) smallBlock b [sampleRow] ∧
      b.finish.toSolidBlock = .ok s ∧ b.m_minRecordId = 0 := by
  have hcall : (smallBlock.step twoTables (.append sampleRow quietIo) >>=
      fun x => x.2.finish.toSolidBlock >>= fun _ => .ok (x.1, x.2.m_minRecordId)) =
      .ok (.B_OK, 0) := by rfl
  obtain ⟨⟨st, b⟩, hstep, hsolid⟩ := Exec.of_bind hcall
  obtain ⟨s, hs, hret⟩ := Exec.of_bind hsolid
  obtain ⟨hst, hmin⟩ := Prod.mk.inj (Except.ok.inj hret)
  subst hst
  refine ⟨b, s, Run.snoc .nil ⟨?_, .inr (.inr ?_)⟩ hstep, hs, hmin⟩
  · intro r io h
    cases h
    rfl
  · decide

def insertsOnly : RecordFilter where
  m_filterType := FL_RECORD_TYPE
  m_startCheckpoint := 0
  m_endCheckpoint := 0
  m_typeBitmap := 1

/-- Iterators that are to give inserts only, on a block with rows of two tables in turn. -/
theorem scansAlike_iff_crossed :
    ∃ b : AppendingBlock noIndex, ∃ s, Run twoTables (RowOp twoTables) wideBlock b crossedRows ∧
      b.finish.toSolidBlock = .ok s ∧
      ScansAlike b.finish s 0 (some insertsOnly) {} {} crossedRows := by
  have hexec : (exec twoTables (isRowCall twoTables) crossedOps (wideBlock, []) >>= fun x =>
      x.1.finish.toSolidBlock >>= fun _ => .ok (x.2, x.1.m_minRecordId)) = .ok (crossedRows, 0) := by
    rfl
  obtain ⟨⟨b, acc⟩, hb, hsolid⟩ := Exec.of_bind hexec
  obtain ⟨s, hs, hret⟩ := Exec.of_bind hsolid
  obtain ⟨rfl, hmin⟩ := Prod.mk.inj (Except.ok.inj hret)
  have hop : ∀ b op s, RowCall twoTables b op s → RowOp twoTables b op s :=
    fun b op s h => ⟨h.2.1, .inr (.inr h.2.2)⟩
  have hrun : Run twoTables (RowOp twoTables) wideBlock b crossedRows :=
    run_of_exec (fun b op _ s h => hop b op s (rowCall_of_isRowCall h)) .nil hb
  refine ⟨b, s, hrun, hs, ?_⟩
  rw [scansAlike_iff twoTables 1 { appending := true } (2 ^ 22) 0 0 0 hrun hs 0
    (some insertsOnly) {} {}]
  exact ⟨rfl, hmin, List.cons_ne_nil _ _, .inl ⟨_, rfl, by decide⟩⟩

/-- A descending iterator without a filter gives the row of the solid block, and crashes on the block
    it was made of. -/
theorem descending_scan_crashes :
    ∃ b : AppendingBlock noIndex, ∃ s, Run twoTables (RowOp twoTables) smallBlock b [sampleRow] ∧
      b.finish.toSolidBlock = .ok s ∧
      (appendingBlockIterator b.finish ITER_FLAG_DESC none).scan 3 {} = .error .nullDeref ∧
      (solidBlockIterator s ITER_FLAG_DESC none).scan 3 {} = .ok [recordRow 0 sampleRow 0] ∧
      ¬ ScansAlike b.finish s ITER_FLAG_DESC none {} {} [sampleRow] := by
  obtain ⟨b, s, hrun, hs, hmin⟩ := run_oneRow
  have hb := hasRecords_of_run hrun
  have hsolid := solid_hasRecords_of_run hrun hs
  have hdesc : increase ITER_FLAG_DESC ≠ true := by decide
  have hcount : s.head.m_recordCount = 1 := hsolid.recordCount
  have hscan := solid_scan_descending hsolid hdesc {}
  rw [hcount, show b.finish.m_minRecordId = 0 from hmin] at hscan
  refine ⟨b, s, hrun, hs, appending_scan_descending hb hdesc (List.cons_ne_nil _ _) 3
    (by decide) {}, hscan, ?_⟩
  rintro ⟨h, -⟩
  have herror := appending_scan_descending hb hdesc (List.cons_ne_nil _ _)
    (b.finish.m_recordCount + 2) (Nat.zero_lt_succ _) {}
  rw [show Option.map RecordFilter.toFilter none = none from rfl, herror] at h
  cases h

end DBStream.Native
