import DBStream.Spec.BlockContents

/-!
# Record addressing

A record position has twelve bits for the page id and twenty for the offset.  As long
as every record lands on a page and an offset with that many bits, `getRecord` returns
the record appended under the id (`getRecord_of_run`).  A block may have more pages:
one of 1 GB has room for 27868 page ids, and from id 4096 on the position names
another page (`getRecord_wraps`).
-/

namespace DBStream.Native.AppendingBlock

variable {I : IndexImpl} {Γ : MetaDataCollection I} {b : AppendingBlock I} {acc : List Record}

/-- The step condition: a record lands on a page and an offset that the packing can hold. -/
def Addressable (Γ : MetaDataCollection I) (b : AppendingBlock I) (op : Op)
    (_ : AppendingBlockStaus) : Prop :=
  LandsIn Γ RecordPosition.Fits b op

/-- In every run whose records land on addressable places, each record is found under its id,
    with its bytes as appended and the id in its head. -/
theorem getRecord_of_run (Γ : MetaDataCollection I) (blockId : Nat) (flag : BlockFlag)
    (bufSize : Nat) (flushSize flushPeriod : Int) (startID : Nat)
    (hrun : Run Γ (Addressable Γ)
      (create blockId flag bufSize flushSize flushPeriod startID) b acc)
    (i : Nat) (hi : i < acc.length) :
    b.getRecord (b.m_minRecordId + i) = .ok (acc[i].stamped (b.m_minRecordId + i)) ∧
    RecordHead.recordId (acc[i].stamped (b.m_minRecordId + i)) =
      (b.m_minRecordId + i) % 2 ^ 64 := by
  have hl₀ := layout_create Γ blockId flag bufSize flushSize flushPeriod startID
  have hc₀ := contents_create Γ RecordPosition.Fits blockId flag bufSize flushSize flushPeriod
    startID
  have hc := hrun.contents hl₀ hc₀ fun _ _ h => h
  constructor
  · exact hc.getRecord (hrun.layout hl₀) (List.getElem?_eq_getElem hi)
  · exact Record.recordId_stamped _ _

/-! ## One page per DDL record -/

def pageRecord : Record := ddlRecord 4046 (by omega)

private theorem length_pageRecord : pageRecord.data.length = 4096 := length_ddlRecord ..

def bigBlock : AppendingBlock noIndex :=
  create 1 { appending := true } (2 ^ 30) 0 0 0

/-- The big block after `n` page records: record `i` alone on page `i`. -/
private structure Filled (n : Nat) (b : AppendingBlock noIndex) : Prop where
  pageCount : b.m_pageCount = n
  size : b.m_size = n * 4096
  recordCount : b.m_recordCount = n
  maxLogOffset : b.m_maxLogOffset = 0
  hasRedo : b.m_flag.hasRedo = false
  maxSize : b.m_maxSize = 2 ^ 30
  maxPageCount : b.m_maxPageCount = 27869
  minId : b.m_minRecordId = 0
  table : ∃ t, b.m_tableDatas.find 0 = some t ∧ t.tableMeta = none ∧ t.pageSize = 4096 ∧
    (t.current = none ∨ ∃ slot p, t.current = some slot ∧ b.m_pages slot = some p ∧
      p.pageUsedSize = 4096 ∧ p.pageSize = 4096)
  pages : ∀ i, i < n → ∃ p, b.m_pages i = some p ∧ p.pageId = i ∧
    p.pageData = pageRecord.stamped i
  positions : ∀ i, i < n → b.m_recordIDs i = some (RecordPosition.set i 0)

private theorem filled_bigBlock : Filled 0 bigBlock where
  pageCount := rfl
  size := rfl
  recordCount := rfl
  maxLogOffset := rfl
  hasRedo := rfl
  maxSize := rfl
  maxPageCount := by decide
  minId := rfl
  table := ⟨TableData.default, rfl, rfl, rfl, Or.inl rfl⟩
  pages := fun i hi => absurd hi (Nat.not_lt_zero i)
  positions := fun i hi => absurd hi (Nat.not_lt_zero i)

/-- One more record of a page each. -/
private theorem Filled.append {n : Nat} {b : AppendingBlock noIndex} (h : Filled n b)
    (hn : n < 5000) :
    ∃ b', b.append noTables pageRecord quietIo = .ok (.B_OK, b') ∧ Filled (n + 1) b' := by
  obtain ⟨t, ht, hmeta, hpsize, hcurrent⟩ := h.table
  have hlen := length_pageRecord
  have hidx : t.indexCount = 0 := by rw [TableData.indexCount, hmeta]
  have htaken : pagesTaken t = 1 := by
    unfold pagesTaken
    split
    · rw [hidx]
    · rfl
  have hroom : b.hasRoom t pageRecord.data.length = .ok false := by
    rcases hcurrent with hnone | ⟨slot, p, hslot, hp, hused, hsize⟩
    · rw [hasRoom, hnone]
    · rw [hasRoom_eq hslot hp, hused, hsize, hlen]
      rfl
  have hopen : CanOpen b t pageRecord.data.length := by
    constructor
    · rw [h.recordCount, maxRecordInBlock]
      omega
    · rw [h.pageCount, htaken, h.maxPageCount]
      omega
    · rw [h.size, h.maxSize, hlen, hpsize]
      omega
  have halloc := allocMemForRecord_made ht hroom hopen
  rw [htaken, hlen, hpsize] at halloc
  -- the new page
  have hready : Ready (b.newPage 0 4096 1) 0 pageRecord.data.length n (t.pushPage n)
      { Page.alloc 4096 with pageId := n } := by
    constructor
    · rw [newPage, SortedMap.find_modify_self, ht, h.pageCount]
      rfl
    · rfl
    · simp [newPage, h.pageCount]
    · rw [hlen]
      exact Nat.le_refl 4096
    · exact hopen.count
  have hstep : b.append noTables pageRecord quietIo = .ok (.B_OK, _) :=
    append_ddl rfl (type_ddlRecord ..) (by rw [h.maxLogOffset]; exact Nat.zero_le _)
      (by rw [hlen]; exact halloc) hready h.hasRedo
  have hlog : RecordHead.logOffset pageRecord.data = 0 := logOffset_ddlRecord ..
  have hsucc : n + 1 - 1 = n := by omega
  refine ⟨_, hstep, ?_⟩
  constructor
  · show b.m_pageCount + 1 = _
    rw [h.pageCount]
  · show b.m_size + 4096 = _
    rw [h.size]
    omega
  · show b.m_recordCount + 1 = _
    rw [h.recordCount]
  · exact hlog
  · exact h.hasRedo
  · exact h.maxSize
  · exact h.maxPageCount
  · exact h.minId
  · refine ⟨t.pushPage n, hready.table, hmeta, hpsize, Or.inr ⟨n, _, rfl,
      Function.update_self .., ?_, rfl⟩⟩
    have hused : ([] ++ pageRecord.stamped (b.m_minRecordId + b.m_recordCount)).length = 4096 := by
      rw [List.nil_append, Record.length_stamped, hlen]
    exact hused
  · intro i hi
    by_cases hin : i = n
    · subst hin
      refine ⟨_, Function.update_self .., rfl, ?_⟩
      show [] ++ pageRecord.stamped (b.m_minRecordId + b.m_recordCount) = _
      rw [h.minId, h.recordCount, Nat.zero_add, List.nil_append]
    · obtain ⟨p, hp, hpid, hdata⟩ := h.pages i (by omega)
      refine ⟨p, ?_, hpid, hdata⟩
      show Function.update (Function.update b.m_pages (b.m_pageCount + 1 - 1) _) n _ i = some p
      rw [Function.update_of_ne hin, h.pageCount, hsucc, Function.update_of_ne hin, hp]
  · intro i hi
    show Function.update b.m_recordIDs b.m_recordCount _ i = _
    rw [h.recordCount]
    by_cases hin : i = n
    · subst hin
      rw [Function.update_self]
      rfl
    · rw [Function.update_of_ne hin]
      exact h.positions i (by omega)

private theorem run_filled (n : Nat) (hn : n ≤ 5000) :
    ∃ b, Run noTables (fun _ _ s => s = .B_OK) bigBlock b (List.replicate n pageRecord) ∧
      Filled n b := by
  induction n with
  | zero => exact ⟨bigBlock, .nil, filled_bigBlock⟩
  | succ n ih =>
    obtain ⟨b, hrun, hfilled⟩ := ih (by omega)
    obtain ⟨b', hcall, hfilled'⟩ := hfilled.append (by omega)
    refine ⟨b', ?_, hfilled'⟩
    have hstep : b.step noTables (.append pageRecord quietIo) = .ok (.B_OK, b') := hcall
    rw [List.replicate_succ']
    exact hrun.snoc rfl hstep

/-- The step condition as a test. -/
def isAddressable (Γ : MetaDataCollection I) (b : AppendingBlock I) (op : Op)
    (_ : AppendingBlockStaus) : Bool :=
  match op with
  | .alloc _ _ => true
  | .append r _ => decide (RecordPosition.Fits (b.landing (Γ.metaOf r.data) r.data.length).1
      (b.landing (Γ.metaOf r.data) r.data.length).2)

private theorem addressable_of_isAddressable {op : Op} {s : AppendingBlockStaus}
    (h : isAddressable Γ b op s = true) : Addressable Γ b op s := by
  cases op with
  | alloc r => trivial
  | append r io =>
    simp only [isAddressable, decide_eq_true_eq] at h
    exact h

/-- Three rows of two tables are read back under their ids. -/
theorem getRecord_of_run_crossed :
    ∃ b : AppendingBlock noIndex, Run twoTables (Addressable twoTables) wideBlock b crossedRows ∧
      ∀ i, (hi : i < crossedRows.length) →
        b.getRecord (b.m_minRecordId + i) = .ok (crossedRows[i].stamped (b.m_minRecordId + i)) ∧
        RecordHead.recordId (crossedRows[i].stamped (b.m_minRecordId + i)) =
          (b.m_minRecordId + i) % 2 ^ 64 := by
  have hexec : (exec twoTables (isAddressable twoTables) crossedOps (wideBlock, []) >>=
      fun x => .ok x.2) = .ok crossedRows := by rfl
  obtain ⟨⟨b, acc⟩, hb, hret⟩ := Exec.of_bind hexec
  obtain rfl := Except.ok.inj hret
  have hrun : Run twoTables (Addressable twoTables) wideBlock b crossedRows :=
    run_of_exec (fun _ _ _ _ => addressable_of_isAddressable) .nil hb
  exact ⟨b, hrun, getRecord_of_run twoTables 1 { appending := true } (2 ^ 22) 0 0 0 hrun⟩

/-- After 4097 successful appends of DDL records of one page each to a block of 1 GB, the last
    record has its position on page 0, and its id leads to the first record. -/
theorem getRecord_wraps :
    ∃ b : AppendingBlock noIndex,
      Run noTables (fun _ _ s => s = .B_OK) bigBlock b (List.replicate 4097 pageRecord) ∧
      b.getRecord (b.m_minRecordId + 4096) = .ok (pageRecord.stamped 0) ∧
      RecordHead.recordId (pageRecord.stamped 0) ≠ (b.m_minRecordId + 4096) % 2 ^ 64 := by
  obtain ⟨b, hrun, hfilled⟩ := run_filled 4097 (by omega)
  refine ⟨b, hrun, ?_, ?_⟩
  · obtain ⟨p, hp, hpid, hdata⟩ := hfilled.pages 0 (by omega)
    unfold getRecord
    rw [if_neg (by omega), Nat.add_sub_cancel_left, hfilled.positions 4096 (by omega)]
    show (deref (b.m_pages 0) >>= fun p => _) = _
    rw [hp, deref_some]
    show (if p.pageId = 0 then recordAt p.pageData 0 else _) = _
    rw [if_pos hpid, hdata]
    have hat : recordAt ([] ++ (pageRecord.stamped 0 ++ [])) [].length = _ := recordAt_append []
      (by rw [Record.length_stamped]; exact pageRecord.head_le)
      (by rw [Record.size_stamped, Record.length_stamped])
    rw [List.append_nil, List.nil_append, List.length_nil] at hat
    exact hat
  · rw [Record.recordId_stamped, hfilled.minId]
    decide

end DBStream.Native.AppendingBlock
