import DBStream.Spec.SolidCorrect

/-!
# Finished blocks and their solid forms

A block is finished by the first call that finds it full, or by the database.  The calls before
may have been refused, so the conversion can fail; when it succeeds, the solid block has every
row change of the block (`preserved_of_toSolidBlock`).
-/

namespace DBStream.Native

variable {I : IndexImpl}

namespace AppendingBlock

variable {Γ : MetaDataCollection I} {b b' : AppendingBlock I} {acc : List Record}

/-! ## Runs with refused calls -/

/-- The step condition: a record to append is a row change, and a call that is not refused has an
    addressable place. -/
def RowOp (Γ : MetaDataCollection I) (b : AppendingBlock I) (op : Op)
    (s : AppendingBlockStaus) : Prop :=
  (∀ r io, op = .append r io → RecordHead.isDML r.data = true) ∧
    (s = .B_FULL ∨ s = .B_ILLEGAL ∨
      RecordPosition.Fits (b.landing (op.tableMeta Γ) op.size).1
        (b.landing (op.tableMeta Γ) op.size).2)

theorem RowOp.landsIn {op : Op} (h : RowOp Γ b op .B_OK) :
    LandsIn Γ RecordPosition.Fits b op := by
  obtain ⟨-, hs | hs | hfits⟩ := h
  · cases hs
  · cases hs
  · cases op with
    | alloc tableId size => exact trivial
    | append r io => exact hfits

theorem pageCount_of_refused {op : Op} {s : AppendingBlockStaus}
    (hs : s = .B_FULL ∨ s = .B_ILLEGAL) (h : b.step Γ op = .ok (s, b')) :
    b'.m_pageCount = b.m_pageCount := by
  cases op with
  | alloc tableId size =>
    obtain ⟨b₁, hb₁, halloc⟩ := Exec.of_bind h
    rcases allocMemForRecord_cases halloc with ⟨-, rfl, -⟩ | ⟨rfl, -⟩
    · show b₁.m_pageCount = b.m_pageCount
      exact pageCount_getTableData hb₁
    · rcases hs with hs | hs <;> cases hs
  | append r io =>
    rcases append_cases h with ⟨-, rfl, -⟩ | ⟨-, b₁, hb₁, ⟨-, rfl, -⟩ | hplaced⟩
    · rfl
    · show b₁.m_pageCount = b.m_pageCount
      exact pageCount_getTableData hb₁
    · -- what is placed is reported as done or as a fault of the redo file
      obtain ⟨b₂, t, slot, p, redo, -, -, hredo, -⟩ := hplaced
      have hstatus := congrArg Prod.fst hredo
      unfold writeRedo at hstatus
      split at hstatus
      · have hcase := RedoState.writeRedo_status (b₂.place slot p r).redo
          (b₂.place slot p r).m_minLogOffset io
          (r.stamped ((b₂.place slot p r).m_minRecordId + (b₂.place slot p r).m_recordCount))
        rw [hstatus] at hcase
        rcases hs with rfl | rfl <;> rcases hcase with hcase | hcase <;> cases hcase
      · rcases hs with rfl | rfl <;> cases hstatus

theorem RowOp.pageCount_le {op : Op} {s : AppendingBlockStaus} (hb : b.m_pageCount ≤ 2 ^ 12)
    (hop : RowOp Γ b op s) (h : b.step Γ op = .ok (s, b')) : b'.m_pageCount ≤ 2 ^ 12 := by
  by_cases hrefused : s = .B_FULL ∨ s = .B_ILLEGAL
  · rw [pageCount_of_refused hrefused h]
    exact hb
  · obtain ⟨-, hs | hs | hfits⟩ := hop
    · exact absurd (.inl hs) hrefused
    · exact absurd (.inr hs) hrefused
    · exact pageCount_le_of_fits hb hfits h

theorem Run.rowOps {b₀ : AppendingBlock I} (hb₀ : b₀.m_pageCount ≤ 2 ^ 12)
    (h : Run Γ (RowOp Γ) b₀ b acc) :
    b.m_pageCount ≤ 2 ^ 12 ∧ ∀ r ∈ acc, RecordHead.isDML r.data = true := by
  induction h with
  | nil => exact ⟨hb₀, fun r hr => (nomatch hr)⟩
  | @snoc b b' acc op s run cond call ih =>
    obtain ⟨hcount, hrows⟩ := ih
    refine ⟨cond.pageCount_le hcount call, ?_⟩
    intro r hr
    rcases List.mem_append.mp hr with hr | hr
    · exact hrows r hr
    · cases op with
      | alloc tableId size => cases hr
      | append r' io =>
        cases s with
        | B_OK =>
          rw [List.mem_singleton.mp hr]
          exact cond.1 r' io rfl
        | _ => cases hr

/-! ## Conversions that succeed -/

theorem converts_of_toSolidBlock {s : SolidBlock} (h : b.toSolidBlock = .ok s) :
    IndexesConvert b ∧ b.layoutPages = b.m_pageCount := by
  unfold toSolidBlock at h
  split at h
  swap
  · cases h
  obtain ⟨c, hloop, h⟩ := Exec.of_bind h
  have hpost := Except.Post.foldlM (f := b.convertTable) (E := fun _ => True)
    (fun done c' => (∀ e ∈ done, ∀ x ∈ e.2.indexes, I.solidPage x.1 x.2 ≠ none) ∧
      c'.pages.length = laidOf done)
    (l := b.m_tableDatas.entries)
    (a := {
      pages := []
      pageMap := fun _ => none
      recordInfos := List.replicate b.m_recordCount {}
      recordIdOrderyTable := []
      tableInfo := [] })
    ⟨fun _ h => (nomatch h), rfl⟩
    (by
      intro done e rest c' _ hc'
      apply (convertTable_post c' e).mono _ fun _ _ => trivial
      intro c'' hc''
      refine ⟨?_, ?_⟩
      · intro e' he'
        rcases List.mem_append.mp he' with he' | he'
        · exact hc'.1 e' he'
        · rw [List.mem_singleton.mp he']
          exact hc''.1
      · rw [hc''.2, hc'.2, laidOf, laidOf, List.map_append, List.sum_append]
        simp)
  rw [hloop] at hpost
  refine ⟨hpost.1, ?_⟩
  split at h
  · rename_i hcount
    rw [← hcount, hpost.2]
    rfl
  · cases h

theorem preserved_of_toSolidBlock {blockId : Nat} {flag : BlockFlag} {bufSize : Nat}
    {flushSize flushPeriod : Int} {startID : Nat} {s : SolidBlock}
    (hrun : Run Γ (RowOp Γ) (create blockId flag bufSize flushSize flushPeriod startID) b acc)
    (h : b.toSolidBlock = .ok s) :
    Preserved Γ b acc s ∧ s.m_recordInfos.length = b.m_recordCount := by
  have hl₀ := layout_create Γ blockId flag bufSize flushSize flushPeriod startID
  have hl := hrun.layout hl₀
  have hc := hrun.contents hl₀ (contents_create Γ RecordPosition.Fits blockId flag bufSize
    flushSize flushPeriod startID) fun _ _ h => RowOp.landsIn h
  obtain ⟨hbound, hrows⟩ := hrun.rowOps (Nat.zero_le _)
  obtain ⟨hidx, hpages⟩ := converts_of_toSolidBlock h
  obtain ⟨s', hs', -, hinfos, hpreserved⟩ :=
    toSolidBlock_of_contents hl hc hidx hpages hbound hrows
  rw [h] at hs'
  cases hs'
  exact ⟨hpreserved, hinfos⟩

/-! ## Finishing a block -/

end AppendingBlock

end DBStream.Native
