import DBStream.Spec.BlockContents

/-!
# When a block refuses a record

`append` reports `B_FULL` exactly when the record is legal, was not built in place, its
table can be registered, and one of the limits of the block is reached (`append_full_iff`).
All of it is read off the block before the call.
-/

namespace DBStream.Native.AppendingBlock

variable {I : IndexImpl} {Γ : MetaDataCollection I} {b b₁ b' : AppendingBlock I}

/-- The page ids the next page of the table takes, also if the table is not registered yet. -/
def pagesFor (b : AppendingBlock I) (m : Option (TableMeta I)) : Nat :=
  match b.m_tableDatas.find (tableKey m) with
  | some t => pagesTaken t
  | none => 1 + m.elim 0 TableMeta.indexCount

def pageSizeFor (b : AppendingBlock I) (m : Option (TableMeta I)) : Nat :=
  match b.m_tableDatas.find (tableKey m) with
  | some t => t.pageSize
  | none => DEFAULT_PAGE_SIZE

/-- No memory for `size` more bytes of the table: the block has all its records, or the table
    needs a new page and the block has no page id or no bytes left for it. -/
def Full (b : AppendingBlock I) (m : Option (TableMeta I)) (size : Nat) : Prop :=
  maxRecordInBlock ≤ b.m_recordCount ∨
  (b.m_tableDatas.find (tableKey m)).bind (b.room · size) = none ∧
    (b.m_maxPageCount ≤ b.m_pageCount + b.pagesFor m ∨
      b.m_maxSize ≤ b.m_size + max size (b.pageSizeFor m))

instance (b : AppendingBlock I) (m : Option (TableMeta I)) (size : Nat) :
    Decidable (b.Full m size) :=
  inferInstanceAs (Decidable (_ ∨ _ ∧ (_ ∨ _)))

/-- The block refuses the record as full. -/
structure Refuses (Γ : MetaDataCollection I) (b : AppendingBlock I) (r : Record) : Prop where
  legal : b.m_maxLogOffset ≤ RecordHead.logOffset r.data
  copied : ¬ (r.addr.isSome ∧ r.addr = b.tail (tableKey (Γ.metaOf r.data)))
  table : ∃ b₁, b.getTableData (Γ.metaOf r.data) = .ok b₁
  full : b.Full (Γ.metaOf r.data) r.data.length

theorem hasRoom_of_layout (hl : Layout Γ b) {k : Nat} {t : TableData I} (size : Nat)
    (ht : b.m_tableDatas.find k = some t) :
    b.hasRoom t size = .ok (b.room t size).isSome := by
  have htl := hl.table k t ht
  cases hcur : t.current with
  | none =>
    rw [hasRoom, hcur]
    simp [room, hcur]
  | some slot =>
    have hmem : slot ∈ t.pages := by
      have hlast := htl.current
      rw [hcur] at hlast
      exact List.mem_of_getLast? hlast.symm
    obtain ⟨p, hp⟩ := htl.filled slot hmem
    rw [hasRoom_eq hcur hp]
    simp only [room, hcur, hp, Option.bind_eq_bind, Option.bind_some]
    split
    · rename_i hfit
      simp [hfit]
    · rename_i hfit
      simp [hfit]

theorem alloc_full_iff (hl : Layout Γ b) {m : Option (TableMeta I)} {t : TableData I}
    (ht : b.m_tableDatas.find (tableKey m) = some t) {size : Nat} :
    (∃ b', b.allocMemForRecord (tableKey m) size = .ok (.B_FULL, b')) ↔ b.Full m size := by
  have hroom := hasRoom_of_layout hl size ht
  simp only [Full, pagesFor, pageSizeFor, ht, Option.bind_some]
  constructor
  · rintro ⟨b', h⟩
    rcases allocMemForRecord_cases h with ⟨-, -, hcount | ⟨t', ht', hno, hopen⟩⟩ | ⟨hs, -⟩
    · exact Or.inl hcount
    · rw [ht] at ht'
      cases ht'
      by_cases hcount : maxRecordInBlock ≤ b.m_recordCount
      · exact Or.inl hcount
      · right
        refine ⟨room_eq_none hno, ?_⟩
        by_contra hlimits
        exact hopen ⟨by omega, by omega, by omega⟩
    · cases hs
  · rintro (hcount | ⟨hnone, hlimits⟩)
    · refine ⟨b.finish, ?_⟩
      unfold allocMemForRecord
      rw [if_pos hcount]
    · rw [hnone] at hroom
      refine ⟨b.finish, allocMemForRecord_full ht hroom ?_⟩
      intro hopen
      have hp := hopen.pages
      have hb := hopen.bytes
      omega

theorem full_getTableData {m : Option (TableMeta I)} (hb₁ : b.getTableData m = .ok b₁)
    (size : Nat) : b₁.Full m size ↔ b.Full m size := by
  rcases getTableData_cases hb₁ with ⟨rfl, -⟩ | ⟨m', t, rfl, hfind, ht, rfl⟩
  · rfl
  · obtain ⟨hmeta, -, hcurrent, -, hpsize, -⟩ := init_spec ht
    have hnew : (b.register m' t).m_tableDatas.find m'.m_id = some t :=
      b.m_tableDatas.find_insert_self hfind
    have hroom : (b.register m' t).room t size = none := by simp [room, hcurrent]
    simp only [Full, pagesFor, pageSizeFor, tableKey, hnew, hfind, Option.bind_some,
      Option.bind_none, hroom, pagesTaken, hcurrent, TableData.indexCount, hmeta, hpsize,
      Option.elim_some]
    rfl

theorem tail_getTableData {m : Option (TableMeta I)} (hb₁ : b.getTableData m = .ok b₁) :
    b₁.tail (tableKey m) = b.tail (tableKey m) := by
  rcases getTableData_cases hb₁ with ⟨rfl, -⟩ | ⟨m', t, rfl, hfind, ht, rfl⟩
  · rfl
  · obtain ⟨-, -, hcurrent, -⟩ := init_spec ht
    have hnew : (b.register m' t).m_tableDatas.find m'.m_id = some t :=
      b.m_tableDatas.find_insert_self hfind
    simp [tail, tableKey, hnew, hfind, hcurrent]

theorem find_getTableData (hl : Layout Γ b) {m : Option (TableMeta I)}
    (hb₁ : b.getTableData m = .ok b₁) : ∃ t, b₁.m_tableDatas.find (tableKey m) = some t := by
  rcases getTableData_cases hb₁ with ⟨rfl, hknown⟩ | ⟨m', t, rfl, hfind, -, rfl⟩
  · cases m with
    | none => exact hl.default
    | some m => exact hknown m rfl
  · exact ⟨t, b.m_tableDatas.find_insert_self hfind⟩

theorem allocMemForTable_full (hl : Layout Γ b) {tableId size : Nat}
    (h : b.allocMemForTable (Γ.get tableId) size = .ok (.B_FULL, b')) :
    b.Full (Γ.get tableId) size := by
  obtain ⟨b₁, hb₁, halloc⟩ := Exec.of_bind h
  have hl₁ := hl.getTableData ((Op.alloc tableId size).known Γ) hb₁
  obtain ⟨t, ht⟩ := find_getTableData hl hb₁
  rw [← full_getTableData hb₁, ← alloc_full_iff hl₁ ht]
  exact ⟨b', halloc⟩

theorem writeRedo_ne_full (b : AppendingBlock I) (r : Record) (io : RedoIo) (redo : RedoState) :
    b.writeRedo r io ≠ (.B_FULL, redo) := by
  intro h
  unfold AppendingBlock.writeRedo at h
  split at h
  · have hs := congrArg Prod.fst h
    rcases RedoState.writeRedo_status b.redo b.m_minLogOffset io
      (r.stamped (b.m_minRecordId + b.m_recordCount)) with hok | hfault
    · rw [hok] at hs
      cases hs
    · rw [hfault] at hs
      cases hs
  · cases h

theorem append_full_iff (hl : Layout Γ b) (r : Record) (io : RedoIo) :
    (∃ b', b.append Γ r io = .ok (.B_FULL, b')) ↔ Refuses Γ b r := by
  constructor
  · rintro ⟨b', h⟩
    rcases append_cases h with ⟨hs, -⟩ | ⟨hlog, b₁, hb₁, hcase⟩
    · cases hs
    · have hl₁ := hl.getTableData ((Op.append r io).known Γ) hb₁
      obtain ⟨t, ht⟩ := find_getTableData hl hb₁
      rcases hcase with ⟨-, -, hplace, halloc⟩ | ⟨b₂, t, slot, p, redo, -, -, hredo, hend⟩
      · rw [tail_getTableData hb₁] at hplace
        exact ⟨hlog, hplace, ⟨b₁, hb₁⟩,
          (full_getTableData hb₁ _).mp ((alloc_full_iff hl₁ ht).mp ⟨_, halloc⟩)⟩
      · -- a record that was placed is refused for its redo at most
        exact absurd hredo (writeRedo_ne_full _ r io redo)
  · rintro ⟨hlog, hplace, ⟨b₁, hb₁⟩, hfull⟩
    have hl₁ := hl.getTableData ((Op.append r io).known Γ) hb₁
    obtain ⟨t, ht⟩ := find_getTableData hl hb₁
    obtain ⟨b', halloc⟩ := (alloc_full_iff hl₁ ht).mpr ((full_getTableData hb₁ _).mpr hfull)
    rw [← tail_getTableData hb₁] at hplace
    exact ⟨b', append_full hlog hb₁ hplace halloc⟩

theorem refuses_prepare {b : AppendingBlock I} {r : Record} (txnId recordId : Nat) :
    Refuses Γ b (r.prepare txnId recordId) ↔ Refuses Γ b r := by
  have hmeta := Γ.metaOf_prepare r txnId recordId
  have hlog := r.logOffset_prepare txnId recordId
  have hlen := r.length_prepare txnId recordId
  constructor
  · rintro ⟨h₁, h₂, h₃, h₄⟩
    rw [hlog] at h₁
    rw [hmeta] at h₂ h₃ h₄
    rw [hlen] at h₄
    exact ⟨h₁, h₂, h₃, h₄⟩
  · rintro ⟨h₁, h₂, h₃, h₄⟩
    refine ⟨?_, ?_, ?_, ?_⟩
    · rw [hlog]
      exact h₁
    · rw [hmeta]
      exact h₂
    · rw [hmeta]
      exact h₃
    · rw [hmeta, hlen]
      exact h₄

end DBStream.Native.AppendingBlock
