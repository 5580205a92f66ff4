import DBStream.Spec.AppendSteps

/-!
# The layout of an appending block

Which slots of `m_pages` are filled, which table owns them, and how `m_pageCount`
follows from the tables.  `Layout` holds of a fresh block and is kept by each change
of `Spec/AppendSteps`, so it holds after every sequence of calls, whatever they
return.
-/

namespace DBStream.Native

variable {I : IndexImpl}

/-- The page ids a table has taken: its pages, and one for each index once it has a page. -/
def TableData.pagesOf (t : TableData I) : Nat :=
  t.pages.length + if t.pages = [] then 0 else t.indexCount

namespace AppendingBlock

variable {Γ : MetaDataCollection I} {b b' : AppendingBlock I}

/-- One table of a block: it is stored under the id of its meta, it has the indexes the meta
    asks for, and it is written to its last page. -/
structure TableLayout (Γ : MetaDataCollection I) (pages : Nat → Option Page) (k : Nat)
    (t : TableData I) : Prop where
  key : tableKey t.tableMeta = k
  known : ∀ m, t.tableMeta = some m → Γ.get m.m_id = some m
  primary : t.primaryKey.isSome = (t.tableMeta.bind TableMeta.m_primaryKey).isSome
  unique : t.uniqueKeys.length = (t.tableMeta.elim 0 fun m => m.m_uniqueKeys.length)
  current : t.current = t.pages.getLast?
  filled : ∀ slot ∈ t.pages, ∃ p, pages slot = some p
  nodup : t.pages.Nodup

/-- The layout invariant. -/
structure Layout (Γ : MetaDataCollection I) (b : AppendingBlock I) : Prop where
  pageId : ∀ slot p, b.m_pages slot = some p → p.pageId = slot ∧ slot < b.m_pageCount
  table : ∀ k t, b.m_tableDatas.find k = some t → TableLayout Γ b.m_pages k t
  default : ∃ t, b.m_tableDatas.find 0 = some t
  owner : ∀ k k' t t' slot, b.m_tableDatas.find k = some t → b.m_tableDatas.find k' = some t' →
    slot ∈ t.pages → slot ∈ t'.pages → k = k'
  pageCount : b.m_pageCount = (b.m_tableDatas.entries.map fun e => e.2.pagesOf).sum
  tableCount : b.m_tableCount = b.m_tableDatas.size

theorem layout_create (Γ : MetaDataCollection I) (blockId : Nat) (flag : BlockFlag)
    (bufSize : Nat) (flushSize flushPeriod : Int) (startID : Nat) :
    Layout Γ (create blockId flag bufSize flushSize flushPeriod startID : AppendingBlock I) where
  pageId := by
    intro slot p h
    cases h
  table := by
    intro k t h
    simp only [create, SortedMap.find_singleton] at h
    split at h
    · rename_i hk
      cases h
      subst hk
      exact ⟨rfl, fun m hm => (nomatch hm), rfl, rfl, rfl, fun slot hs => (nomatch hs), .nil⟩
    · cases h
  default := ⟨TableData.default, rfl⟩
  owner := by
    intro k k' t t' slot h h'
    simp only [create, SortedMap.find_singleton] at h h'
    split at h <;> split at h' <;> simp_all
  pageCount := rfl
  tableCount := rfl

/-! ## Registering a table -/

theorem init_spec {m : TableMeta I} {t : TableData I} (h : TableData.init m = .ok t) :
    t.tableMeta = some m ∧ t.pages = [] ∧ t.current = none ∧ t.recordIds = [] ∧
      t.pageSize = DEFAULT_PAGE_SIZE ∧ t.primaryKey.isSome = m.m_primaryKey.isSome ∧
      t.uniqueKeys.length = m.m_uniqueKeys.length := by
  obtain ⟨pk, hpk, h⟩ := Exec.of_bind h
  obtain ⟨uks, huks, h⟩ := Exec.of_bind h
  cases h
  exact ⟨rfl, rfl, rfl, rfl, rfl, Exec.isSome_mapM hpk, Exec.length_mapM huks⟩

theorem Layout.register (hb : Layout Γ b) {m : TableMeta I} {t : TableData I}
    (hm : Γ.get m.m_id = some m) (hfind : b.m_tableDatas.find m.m_id = none)
    (ht : TableData.init m = .ok t) : Layout Γ (b.register m t) := by
  obtain ⟨hmeta, hpages, hcurrent, -, -, hpk, huk⟩ := init_spec ht
  refine ⟨hb.pageId, ?_, ?_, ?_, ?_, ?_⟩
  · intro k t' h
    rcases b.m_tableDatas.find_insert_cases hfind h with ⟨rfl, rfl⟩ | ⟨_, h⟩
    · refine ⟨by rw [hmeta]; rfl, ?_, by rw [hmeta]; exact hpk, by rw [hmeta]; exact huk,
        by rw [hcurrent, hpages]; rfl, ?_, by rw [hpages]; exact .nil⟩
      · intro m' hm'
        rw [hmeta] at hm'
        cases hm'
        exact hm
      · intro slot hs
        rw [hpages] at hs
        cases hs
    · exact hb.table k t' h
  · obtain ⟨t₀, ht₀⟩ := hb.default
    refine ⟨t₀, ?_⟩
    rw [AppendingBlock.register, SortedMap.find_insert_of_ne _ ?_, ht₀]
    intro h0
    rw [← h0, ht₀] at hfind
    cases hfind
  · intro k k' t₁ t₂ slot h₁ h₂ hs₁ hs₂
    rcases b.m_tableDatas.find_insert_cases hfind h₁ with ⟨rfl, rfl⟩ | ⟨_, h₁⟩
    · rw [hpages] at hs₁
      cases hs₁
    · rcases b.m_tableDatas.find_insert_cases hfind h₂ with ⟨rfl, rfl⟩ | ⟨_, h₂⟩
      · rw [hpages] at hs₂
        cases hs₂
      · exact hb.owner k k' t₁ t₂ slot h₁ h₂ hs₁ hs₂
  · have hzero : t.pagesOf = 0 := by
      rw [TableData.pagesOf, hpages, if_pos rfl, List.length_nil]
    rw [AppendingBlock.register, SortedMap.sum_insert _ _ hfind, hzero, Nat.add_zero]
    exact hb.pageCount
  · rw [AppendingBlock.register, SortedMap.size_insert _ hfind, ← hb.tableCount]

theorem Layout.getTableData (hb : Layout Γ b) {m : Option (TableMeta I)}
    (hm : ∀ m', m = some m' → Γ.get m'.m_id = some m') (h : b.getTableData m = .ok b') :
    Layout Γ b' := by
  rcases getTableData_cases h with ⟨rfl, -⟩ | ⟨m', t, rfl, hfind, ht, rfl⟩
  · exact hb
  · exact hb.register (hm m' rfl) hfind ht

/-! ## A new page -/

theorem Layout.pagesTaken_pos (t : TableData I) : 0 < pagesTaken t := by
  simp only [pagesTaken]
  split <;> omega

theorem pagesOf_pushPage {t : TableData I} (hcurrent : t.current = t.pages.getLast?) (slot : Nat) :
    (t.pushPage slot).pagesOf = t.pagesOf + pagesTaken t := by
  have hidx : (t.pushPage slot).indexCount = t.indexCount := rfl
  have hpush : (t.pushPage slot).pages = t.pages ++ [slot] := rfl
  have hne : t.pages ++ [slot] ≠ [] := by simp
  rw [TableData.pagesOf, TableData.pagesOf, hidx, hpush, if_neg hne, List.length_append]
  by_cases hp : t.pages = []
  · have hnone : t.current = none := by rw [hcurrent, hp]; rfl
    rw [if_pos hp, hp, pagesTaken, hnone]
    simp only [List.length_nil, List.length_singleton]
    omega
  · have hsome := List.getLast?_eq_some_getLast hp
    rw [if_neg hp, pagesTaken, hcurrent, hsome]
    simp only [List.length_singleton]
    omega

/-- A new page at the end of the block, as the last one of a table. -/
theorem Layout.newPage (hb : Layout Γ b) {key psize : Nat} {t : TableData I}
    (ht : b.m_tableDatas.find key = some t) : Layout Γ (b.newPage key psize (pagesTaken t)) := by
  have hpos := Layout.pagesTaken_pos t
  have htl := hb.table key t ht
  let slot := b.m_pageCount + pagesTaken t - 1
  -- the new slot lies behind every slot in use
  have hfresh : ∀ k t', b.m_tableDatas.find k = some t' → slot ∉ t'.pages := by
    intro k t' h hs
    obtain ⟨p, hp⟩ := (hb.table k t' h).filled slot hs
    have := (hb.pageId slot p hp).2
    omega
  have hmono : ∀ s, (∃ p, b.m_pages s = some p) →
      ∃ p, (b.newPage key psize (pagesTaken t)).m_pages s = some p := by
    rintro s ⟨p, hp⟩
    by_cases hs : s = slot
    · exact ⟨_, by rw [hs]; exact Function.update_self ..⟩
    · refine ⟨p, ?_⟩
      show Function.update b.m_pages slot _ s = some p
      rw [Function.update_of_ne hs, hp]
  refine ⟨?_, ?_, ?_, ?_, ?_, ?_⟩
  · intro s p h
    simp only [AppendingBlock.newPage, Function.update_apply] at h
    split at h
    · rename_i hs
      cases h
      exact ⟨hs.symm, show s < b.m_pageCount + pagesTaken t by omega⟩
    · obtain ⟨hid, hlt⟩ := hb.pageId s p h
      exact ⟨hid, show s < b.m_pageCount + pagesTaken t by omega⟩
  · intro k t' h
    rcases b.m_tableDatas.find_modify_cases ht h with ⟨rfl, rfl⟩ | ⟨_, h⟩
    · refine ⟨htl.key, htl.known, htl.primary, htl.unique, ?_, ?_, ?_⟩
      · simp [TableData.pushPage]
      · intro s hs
        rcases List.mem_append.mp hs with hs | hs
        · exact hmono s (htl.filled s hs)
        · rw [List.mem_singleton.mp hs]
          exact ⟨_, Function.update_self ..⟩
      · refine List.nodup_append.mpr ⟨htl.nodup, List.pairwise_singleton _ _, ?_⟩
        intro s hs s' hslot heq
        rw [heq, List.mem_singleton.mp hslot] at hs
        exact hfresh _ t ht hs
    · have hk := hb.table k t' h
      exact ⟨hk.key, hk.known, hk.primary, hk.unique, hk.current,
        fun s hs => hmono s (hk.filled s hs), hk.nodup⟩
  · obtain ⟨t₀, ht₀⟩ := hb.default
    exact b.m_tableDatas.find_modify_of_find _ ht₀
  · intro k k' t₁ t₂ s h₁ h₂ hs₁ hs₂
    rcases b.m_tableDatas.find_modify_cases ht h₁ with ⟨rfl, rfl⟩ | ⟨_, hold₁⟩
    · rcases b.m_tableDatas.find_modify_cases ht h₂ with ⟨rfl, rfl⟩ | ⟨_, hold₂⟩
      · rfl
      · rcases List.mem_append.mp hs₁ with hs | hs
        · exact hb.owner _ k' t t₂ s ht hold₂ hs hs₂
        · rw [List.mem_singleton.mp hs] at hs₂
          exact absurd hs₂ (hfresh k' t₂ hold₂)
    · rcases b.m_tableDatas.find_modify_cases ht h₂ with ⟨rfl, rfl⟩ | ⟨_, hold₂⟩
      · rcases List.mem_append.mp hs₂ with hs | hs
        · exact hb.owner k _ t₁ t s hold₁ ht hs₁ hs
        · rw [List.mem_singleton.mp hs] at hs₁
          exact absurd hs₁ (hfresh k t₁ hold₁)
      · exact hb.owner k k' t₁ t₂ s hold₁ hold₂ hs₁ hs₂
  · have hsum := b.m_tableDatas.sum_modify (fun e => e.2.pagesOf) (TableData.pushPage slot) ht
    have hpush := pagesOf_pushPage htl.current slot
    have hcount := hb.pageCount
    simp only at hsum
    show b.m_pageCount + pagesTaken t =
      ((b.m_tableDatas.modify key (TableData.pushPage slot)).entries.map
        fun e => e.2.pagesOf).sum
    omega
  · rw [AppendingBlock.newPage, SortedMap.size_modify, ← hb.tableCount]

theorem Layout.opened (hb : Layout Γ b) {key size : Nat} (h : Opened b key size b') :
    Layout Γ b' := by
  cases h with
  | found => exact hb
  | made t ht _ _ => exact hb.newPage ht

/-! ## Writing a record -/

theorem Layout.place (hb : Layout Γ b) {key size slot : Nat} {t : TableData I} {p : Page}
    (h : Ready b key size slot t p) (r : Record) : Layout Γ (b.place slot p r) := by
  refine ⟨?_, ?_, hb.default, hb.owner, hb.pageCount, hb.tableCount⟩
  · intro s q hq
    simp only [AppendingBlock.place, Function.update_apply] at hq
    split at hq
    · rename_i hs
      cases hq
      subst hs
      exact hb.pageId s p h.page
    · exact hb.pageId s q hq
  · intro k t' ht'
    have hk := hb.table k t' ht'
    refine ⟨hk.key, hk.known, hk.primary, hk.unique, hk.current, ?_, hk.nodup⟩
    intro s hs
    simp only [AppendingBlock.place, Function.update_apply]
    split
    · exact ⟨_, rfl⟩
    · exact hk.filled s hs

theorem addRecord_spec {t t' : TableData I} {data : List UInt8} {n : Nat}
    (h : t.addRecord data n = .ok t') :
    t'.tableMeta = t.tableMeta ∧ t'.pages = t.pages ∧ t'.current = t.current ∧
      t'.pageSize = t.pageSize ∧ t'.recordIds = t.recordIds ++ [n] ∧
      t'.primaryKey.isSome = t.primaryKey.isSome ∧
      t'.uniqueKeys.length = t.uniqueKeys.length := by
  obtain ⟨pk, hpk, h⟩ := Exec.of_bind h
  obtain ⟨uks, huks, h⟩ := Exec.of_bind h
  cases h
  exact ⟨rfl, rfl, rfl, rfl, rfl, Exec.isSome_mapM hpk, Exec.length_mapM huks⟩

theorem Layout.setTable (hb : Layout Γ b) {k : Nat} {t t' : TableData I}
    (ht : b.m_tableDatas.find k = some t) {data : List UInt8} {n : Nat}
    (h : t.addRecord data n = .ok t') :
    Layout Γ { b with m_tableDatas := b.m_tableDatas.modify k fun _ => t' } := by
  obtain ⟨hmeta, hpages, hcurrent, -, -, hpk, huk⟩ := addRecord_spec h
  have htl := hb.table k t ht
  refine ⟨hb.pageId, ?_, ?_, ?_, ?_, ?_⟩
  · intro k₁ t₁ h₁
    rcases b.m_tableDatas.find_modify_cases ht h₁ with ⟨rfl, rfl⟩ | ⟨_, h₁⟩
    · refine ⟨by rw [hmeta]; exact htl.key, by rw [hmeta]; exact htl.known,
        by rw [hpk, hmeta]; exact htl.primary, by rw [huk, hmeta]; exact htl.unique,
        by rw [hcurrent, hpages]; exact htl.current, by rw [hpages]; exact htl.filled,
        by rw [hpages]; exact htl.nodup⟩
    · exact hb.table k₁ t₁ h₁
  · obtain ⟨t₀, ht₀⟩ := hb.default
    exact b.m_tableDatas.find_modify_of_find _ ht₀
  · intro k₁ k₂ t₁ t₂ s h₁ h₂ hs₁ hs₂
    have hold : ∀ k₁ t₁, (b.m_tableDatas.modify k fun _ => t').find k₁ = some t₁ →
        ∃ t₀, b.m_tableDatas.find k₁ = some t₀ ∧ t₀.pages = t₁.pages := by
      intro k₁ t₁ h₁
      rcases b.m_tableDatas.find_modify_cases ht h₁ with ⟨rfl, rfl⟩ | ⟨_, h₁⟩
      · exact ⟨t, ht, hpages.symm⟩
      · exact ⟨t₁, h₁, rfl⟩
    obtain ⟨u₁, hu₁, he₁⟩ := hold k₁ t₁ h₁
    obtain ⟨u₂, hu₂, he₂⟩ := hold k₂ t₂ h₂
    exact hb.owner k₁ k₂ u₁ u₂ s hu₁ hu₂ (by rw [he₁]; exact hs₁) (by rw [he₂]; exact hs₂)
  · have hsame : t'.pagesOf = t.pagesOf := by
      simp only [TableData.pagesOf, TableData.indexCount, hpages, hmeta]
    have hsum := b.m_tableDatas.sum_modify (fun e => e.2.pagesOf) (fun _ => t') ht
    have hcount := hb.pageCount
    simp only at hsum
    show b.m_pageCount =
      ((b.m_tableDatas.modify k fun _ => t').entries.map fun e => e.2.pagesOf).sum
    omega
  · show b.m_tableCount = _
    rw [SortedMap.size_modify, ← hb.tableCount]

theorem Layout.store (hb : Layout Γ b) {slot : Nat} {t : TableData I} {p : Page} {r : Record}
    {redo : RedoState} {tables : SortedMap Nat (TableData I)}
    (h : Ready b (tableKey (Γ.metaOf r.data)) r.data.length slot t p)
    (hidx : Indexed Γ b r t tables) : Layout Γ (b.store slot p r redo tables) := by
  have hplaced := hb.place h r
  cases hidx with
  | row m t' hmeta hadd =>
    have ht := h.table
    rw [hmeta] at ht
    have hset := hplaced.setTable ht hadd
    exact ⟨hset.pageId, hset.table, hset.default, hset.owner, hset.pageCount, hset.tableCount⟩
  | other _ hmeta =>
    exact ⟨hplaced.pageId, hplaced.table, hplaced.default, hplaced.owner, hplaced.pageCount,
      hplaced.tableCount⟩

end AppendingBlock

end DBStream.Native
