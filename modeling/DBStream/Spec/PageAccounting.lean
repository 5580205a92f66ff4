import DBStream.ForStd.Except
import DBStream.Native.SolidBlock
import DBStream.Spec.BlockContents

/-!
# Page accounting

`append` counts page ids as it hands them out, `toSolidBlock` lays out the pages of the
tables it finds.  The two agree as long as every table with an index has a page
(`NoStray`).  A call breaks that when it registers a table with an index and then
reports a full block (`toSolidBlock_overflows`); calls that do not are described by
`Accounted`.
-/

namespace DBStream.Native

variable {I : IndexImpl}

namespace AppendingBlock

variable {Γ : MetaDataCollection I} {b b₁ b' : AppendingBlock I} {acc : List Record}

/-- The number of pages `toSolidBlock` lays out for a table: one for each index, and its data
    pages. -/
def pagesLaid (t : TableData I) : Nat := t.indexes.length + t.pages.length

/-- The number of pages `toSolidBlock` lays out. -/
def layoutPages (b : AppendingBlock I) : Nat :=
  (b.m_tableDatas.entries.map fun e => pagesLaid e.2).sum

/-- Errors that have nothing to do with the page count. -/
def Benign (e : Fault) : Prop := e ≠ .assertFailed ∧ e ≠ .pageOverflow

/-! ## The conversion -/

theorem addPage_post (c : Conversion) (p : Page) :
    Except.Post (b.addPage c p) (fun c' => c'.pages.length = c.pages.length + 1)
      fun e => c.pages.length < b.m_pageCount → Benign e := by
  unfold addPage
  split
  · show (c.pages ++ [_]).length = _
    rw [List.length_append, List.length_singleton]
  · rename_i h
    exact fun hroom => absurd hroom h

private theorem addIndexPage_post (c : Conversion) (x : I.KeyMeta × I.Index) :
    Except.Post (b.addIndexPage c x)
      (fun c' => I.solidPage x.1 x.2 ≠ none ∧ c'.pages.length = c.pages.length + 1)
      fun e => c.pages.length < b.m_pageCount → Benign e := by
  unfold addIndexPage
  unfold createSolidIndexPage
  cases I.solidPage x.1 x.2 with
  | none => exact fun _ => ⟨by decide, by decide⟩
  | some data =>
    apply (addPage_post c _).mono _ fun e he => he
    intro c' hc'
    exact ⟨Option.some_ne_none _, hc'⟩

private theorem addDataPage_post (c : Conversion) (slot : Nat) :
    Except.Post (b.addDataPage c slot) (fun c' => c'.pages.length = c.pages.length + 1)
      fun e => c.pages.length < b.m_pageCount → Benign e := by
  unfold addDataPage
  cases b.m_pages slot with
  | none => exact fun _ => ⟨by decide, by decide⟩
  | some p =>
    show Except.Post (if p.pageId < b.m_pageCount then _ else _) _ _
    split
    · exact addPage_post _ p
    · exact fun _ => ⟨by decide, by decide⟩

private theorem getRecordByIdx_post (i : Nat) :
    Except.Post (b.getRecordByIdx i) (fun _ => True) Benign := by
  unfold getRecordByIdx
  cases b.m_recordIDs i with
  | none => exact ⟨by decide, by decide⟩
  | some offset =>
    apply Except.Post.bind
    cases b.m_pages (RecordPosition.pageId offset) with
    | none => exact ⟨by decide, by decide⟩
    | some p =>
      show Except.Post (recordAt _ _) _ _
      unfold recordAt
      split
      · exact trivial
      · exact ⟨by decide, by decide⟩

theorem addRecordInfo_post (tableIdx : Nat) (c : Conversion) (rid : Nat) :
    Except.Post (b.addRecordInfo tableIdx c rid) (fun c' => c'.pages.length = c.pages.length)
      Benign := by
  unfold addRecordInfo
  cases b.m_recordIDs rid with
  | none => exact ⟨by decide, by decide⟩
  | some currentOffset =>
    cases hmap : c.pageMap (RecordPosition.pageId currentOffset) with
    | none =>
      simp only [hmap]
      exact ⟨by decide, by decide⟩
    | some page =>
      simp only [hmap]
      apply Except.Post.bind
      apply (getRecordByIdx_post rid).mono _ fun e he => he
      intro d _
      split
      · rfl
      · exact ⟨by decide, by decide⟩

/-- A turn of the loop lays out the pages of its table, or fails for want of room only. -/
theorem convertTable_post (c : Conversion) (e : Nat × TableData I) :
    Except.Post (b.convertTable c e)
      (fun c' => (∀ x ∈ e.2.indexes, I.solidPage x.1 x.2 ≠ none) ∧
        c'.pages.length = c.pages.length + pagesLaid e.2)
      fun err => c.pages.length + pagesLaid e.2 ≤ b.m_pageCount → Benign err := by
  unfold pagesLaid
  -- the index pages
  apply Except.Post.bind
  apply (Except.Post.foldlM (fun done c' => (∀ x ∈ done, I.solidPage x.1 x.2 ≠ none) ∧
    c'.pages.length = c.pages.length + done.length) ⟨fun _ h => (nomatch h), rfl⟩ _).mono _
    fun e he => he
  · intro done x rest c' hl hc'
    have hlen := congrArg List.length hl
    rw [List.length_append, List.length_cons] at hlen
    apply (addIndexPage_post c' x).mono
    · intro c'' hc''
      refine ⟨?_, ?_⟩
      · intro y hy
        rcases List.mem_append.mp hy with hy | hy
        · exact hc'.1 y hy
        · rw [List.mem_singleton.mp hy]
          exact hc''.1
      · rw [hc''.2, hc'.2, List.length_append, List.length_singleton, Nat.add_assoc]
    · intro err herr hroom
      exact herr (by omega)
  intro c₁ hc₁
  -- the data pages
  apply Except.Post.bind
  apply (Except.Post.foldlM (fun done c' => c'.pages.length = c₁.pages.length + done.length) rfl
    _).mono _ fun e he => he
  · intro done x rest c' hl hc'
    have hlen := congrArg List.length hl
    rw [List.length_append, List.length_cons] at hlen
    apply (addDataPage_post c' x).mono
    · intro c'' hc''
      rw [hc'', hc', List.length_append, List.length_singleton, Nat.add_assoc]
    · intro err herr hroom
      exact herr (by omega)
  intro c₂ hc₂
  -- the record infos add no page
  apply Except.Post.bind
  apply (Except.Post.foldlM (fun _ c' => c'.pages.length = c₂.pages.length) rfl _).mono _
    fun e he => he
  · intro done x rest c' hl hc'
    apply (addRecordInfo_post _ c' x).mono
    · intro c'' hc''
      rw [hc'', hc']
    · intro err herr _
      exact herr
  intro c₃ hc₃
  refine ⟨hc₁.1, ?_⟩
  show c₃.pages.length = _
  omega

/-- When the pages to lay out are the pages counted, `toSolidBlock` neither overruns the page
    array nor fails its assertions. -/
theorem toSolidBlock_post (hl : Layout Γ b) (h : b.layoutPages = b.m_pageCount) :
    Except.Post b.toSolidBlock (fun s => s.pages.length = b.m_pageCount) Benign := by
  unfold toSolidBlock
  rw [if_pos hl.tableCount]
  apply Except.Post.bind
  apply (Except.Post.foldlM (fun done c => c.pages.length =
    (done.map fun e => pagesLaid e.2).sum) rfl _).mono _ fun e he => he
  · intro done x rest c hsplit hc
    have hsum : (done.map fun e => pagesLaid e.2).sum + (pagesLaid x.2 +
        (rest.map fun e => pagesLaid e.2).sum) = b.m_pageCount := by
      rw [← h, layoutPages, hsplit, List.map_append, List.sum_append, List.map_cons,
        List.sum_cons]
    apply (convertTable_post c x).mono
    · intro c' hc'
      rw [hc'.2, hc, List.map_append, List.sum_append]
      simp
    · intro err herr
      exact herr (by omega)
  · intro c hc
    have hpages : c.pages.length = b.m_pageCount := by rw [hc, ← h, layoutPages]
    rw [if_pos hpages]
    show (c.pages.map _).length = _
    rw [List.length_map, hpages]

/-! ## Stray tables -/

/-- Every table with an index has a page. -/
def NoStray (b : AppendingBlock I) : Prop :=
  ∀ k t, b.m_tableDatas.find k = some t → t.indexCount = 0 ∨ t.pages ≠ []

theorem TableLayout.length_indexes {pages : Nat → Option Page} {k : Nat} {t : TableData I}
    (h : TableLayout Γ pages k t) : t.indexes.length = t.indexCount := by
  have hprimary := h.primary
  have hunique := h.unique
  unfold TableData.indexes TableData.indexCount
  cases hm : t.tableMeta with
  | none => rfl
  | some m =>
    rw [hm] at hprimary hunique
    simp only [Option.bind_some, Option.elim_some] at hprimary hunique
    simp only [List.length_append, List.length_zip, hunique, Nat.min_self, TableMeta.indexCount]
    cases hp : t.primaryKey <;> cases hq : m.m_primaryKey <;> simp_all

theorem layoutPages_eq (hl : Layout Γ b) (h : NoStray b) : b.layoutPages = b.m_pageCount := by
  rw [hl.pageCount, layoutPages]
  congr 1
  apply List.map_congr_left
  intro e he
  have hfind := b.m_tableDatas.mem_entries.mp he
  rw [pagesLaid, (hl.table e.1 e.2 hfind).length_indexes, TableData.pagesOf]
  rcases h e.1 e.2 hfind with hzero | hpages
  · rw [hzero]
    split <;> omega
  · rw [if_neg hpages]
    omega

/-- The step condition: a call that would register a table with an index finds room for its first
    page, or is refused for its log offset before it gets there. -/
def Accounted (Γ : MetaDataCollection I) (b : AppendingBlock I) (op : Op)
    (_ : AppendingBlockStaus) : Prop :=
  (∃ r io, op = .append r io ∧ RecordHead.logOffset r.data < b.m_maxLogOffset) ∨
  ∀ m, op.tableMeta Γ = some m →
    (∃ t, b.m_tableDatas.find m.m_id = some t) ∨ m.indexCount = 0 ∨
    (b.m_recordCount < maxRecordInBlock ∧
      b.m_pageCount + 1 + m.indexCount < b.m_maxPageCount ∧
      b.m_size + max op.size DEFAULT_PAGE_SIZE < b.m_maxSize)

theorem alloc_registered {m : TableMeta I} {t : TableData I} {size : Nat}
    (hfind : b.m_tableDatas.find m.m_id = none) (ht : TableData.init m = .ok t)
    (hcount : b.m_recordCount < maxRecordInBlock)
    (hpages : b.m_pageCount + 1 + m.indexCount < b.m_maxPageCount)
    (hbytes : b.m_size + max size DEFAULT_PAGE_SIZE < b.m_maxSize) :
    ∃ b', (b.register m t).allocMemForRecord m.m_id size = .ok (.B_OK, b') := by
  obtain ⟨hmeta, -, hcurrent, -, hpsize, -⟩ := init_spec ht
  have htable : (b.register m t).m_tableDatas.find m.m_id = some t :=
    b.m_tableDatas.find_insert_self hfind
  have hroom : (b.register m t).hasRoom t size = .ok false := by rw [hasRoom, hcurrent]
  have htaken : pagesTaken t = 1 + m.indexCount := by
    simp only [pagesTaken, hcurrent, TableData.indexCount, hmeta]
  have hopen : CanOpen (b.register m t) t size := by
    constructor
    · exact hcount
    · rw [htaken]
      show b.m_pageCount + (1 + m.indexCount) < b.m_maxPageCount
      omega
    · rw [hpsize]
      exact hbytes
  exact ⟨_, allocMemForRecord_made htable hroom hopen⟩

theorem NoStray.register (hb : NoStray b) {m : TableMeta I} {t : TableData I}
    (hfind : b.m_tableDatas.find m.m_id = none) (ht : TableData.init m = .ok t)
    (hm : m.indexCount = 0) : NoStray (b.register m t) := by
  intro k t' h
  rcases b.m_tableDatas.find_insert_cases hfind h with ⟨-, rfl⟩ | ⟨-, h⟩
  · obtain ⟨hmeta, -⟩ := init_spec ht
    left
    rw [TableData.indexCount, hmeta]
    exact hm
  · exact hb k t' h

theorem NoStray.newPage {key psize taken : Nat} {t : TableData I}
    (ht : b.m_tableDatas.find key = some t)
    (hb : ∀ k u, b.m_tableDatas.find k = some u → k = key ∨ u.indexCount = 0 ∨ u.pages ≠ []) :
    NoStray (b.newPage key psize taken) := by
  intro k t' h
  rcases b.m_tableDatas.find_modify_cases ht h with ⟨-, rfl⟩ | ⟨hk, h⟩
  · right
    simp [TableData.pushPage]
  · rcases hb k t' h with hkey | hok
    · exact absurd hkey hk
    · exact hok

theorem NoStray.indexed (hb : NoStray b) {r : Record} {t : TableData I}
    {tables : SortedMap Nat (TableData I)}
    (ht : b.m_tableDatas.find (tableKey (Γ.metaOf r.data)) = some t)
    (hidx : Indexed Γ b r t tables) :
    ∀ k u, tables.find k = some u → u.indexCount = 0 ∨ u.pages ≠ [] := by
  intro k u hu
  cases hidx with
  | row m t' hmeta hadd =>
    obtain ⟨htm, hpages, -⟩ := addRecord_spec hadd
    rw [hmeta] at ht
    rcases b.m_tableDatas.find_modify_cases ht hu with ⟨-, rfl⟩ | ⟨-, hu⟩
    · have hold := hb _ t ht
      rw [TableData.indexCount] at hold ⊢
      rw [htm, hpages]
      exact hold
    · exact hb k u hu
  | other _ _ => exact hb k u hu

/-- Every accounted call leaves all pages on the lists of the tables. -/
theorem NoStray.step (hb : NoStray b) {op : Op} {s : AppendingBlockStaus}
    (hcond : Accounted Γ b op s) (h : b.step Γ op = .ok (s, b')) : NoStray b' := by
  rcases step_cases h with ⟨-, rfl⟩ | ⟨b₁, hb₁, hcase⟩
  · exact hb
  -- a call that went on was not refused for its log offset
  have hroom : ∀ m, op.tableMeta Γ = some m → b.m_tableDatas.find m.m_id = none →
      m.indexCount = 0 ∨ (b.m_recordCount < maxRecordInBlock ∧
        b.m_pageCount + 1 + m.indexCount < b.m_maxPageCount ∧
        b.m_size + max op.size DEFAULT_PAGE_SIZE < b.m_maxSize) ∨ b' = b := by
    intro m hm hfind
    rcases hcond with ⟨r, io, rfl, hlog⟩ | hcond
    · right; right
      have h' : b.append Γ r io = .ok (s, b') := h
      unfold append at h'
      rw [if_pos hlog] at h'
      cases h'
      rfl
    · rcases hcond m hm with ⟨t, ht⟩ | hzero | hfits
      · rw [ht] at hfind
        cases hfind
      · exact Or.inl hzero
      · exact Or.inr (Or.inl hfits)
  -- what the tables look like when a page with room is there
  have hopened : ∀ b₂, Opened b₁ (tableKey (op.tableMeta Γ)) op.size b₂ →
      (∃ t slot p, Ready b₂ (tableKey (op.tableMeta Γ)) op.size slot t p) → NoStray b₂ := by
    intro b₂ hop hready
    rcases getTableData_cases hb₁ with ⟨rfl, -⟩ | ⟨m, t, hm, hfind, ht, rfl⟩
    · cases hop with
      | found => exact hb
      | made t ht _ _ => exact NoStray.newPage ht fun k u hu => Or.inr (hb k u hu)
    · rw [hm] at hop hready
      cases hop with
      | found =>
        obtain ⟨t', slot, p, hready⟩ := hready
        obtain ⟨-, -, hcurrent, -⟩ := init_spec ht
        have htable := hready.table
        rw [tableKey, AppendingBlock.register, SortedMap.find_insert_self _ hfind] at htable
        cases htable
        rw [hready.current] at hcurrent
        cases hcurrent
      | made t' ht' _ _ =>
        apply NoStray.newPage ht'
        intro k u hu
        rcases b.m_tableDatas.find_insert_cases hfind hu with ⟨hk, -⟩ | ⟨-, hu⟩
        · exact Or.inl hk
        · exact Or.inr (hb k u hu)
  rcases hcase with ⟨rfl, rfl, halloc⟩ | ⟨b₂, hop, t, slot, p, hready, hend⟩
  · -- full: the table was known, or has no index
    rcases getTableData_cases hb₁ with ⟨rfl, -⟩ | ⟨m, t, hm, hfind, ht, rfl⟩
    · exact hb
    · rcases hroom m hm hfind with hzero | ⟨hcount, hpages, hbytes⟩ | hsame
      · exact hb.register hfind ht hzero
      · obtain ⟨b'', hok⟩ := alloc_registered hfind ht hcount hpages hbytes
        rw [hm, tableKey, hok] at halloc
        cases halloc
      · rw [hsame]
        exact hb
  · have hb₂ := hopened b₂ hop ⟨t, slot, p, hready⟩
    rcases hend with ⟨-, rfl | ⟨r, redo, -, rfl⟩⟩ | ⟨r, io, redo, tables, rfl, -, hidx, rfl⟩
    · exact hb₂
    · exact hb₂
    · exact hb₂.indexed hready.table hidx

theorem Run.noStray {b₀ : AppendingBlock I} (h₀ : NoStray b₀)
    (h : Run Γ (Accounted Γ) b₀ b acc) : NoStray b := by
  induction h with
  | nil => exact h₀
  | snoc run cond call ih => exact ih.step cond call

theorem noStray_create (blockId : Nat) (flag : BlockFlag) (bufSize : Nat)
    (flushSize flushPeriod : Int) (startID : Nat) :
    NoStray (create blockId flag bufSize flushSize flushPeriod startID : AppendingBlock I) := by
  intro k t h
  simp only [create, SortedMap.find_singleton] at h
  split at h
  · cases h
    exact Or.inl rfl
  · cases h

/-- In every run whose calls register no table with an index without giving it a page, the pages
    `toSolidBlock` lays out are those counted in `m_pageCount`; its assertions hold and it stays
    inside the page array. -/
theorem pageCount_exact_of_run (Γ : MetaDataCollection I) (blockId : Nat) (flag : BlockFlag)
    (bufSize : Nat) (flushSize flushPeriod : Int) (startID : Nat)
    (hrun : Run Γ (Accounted Γ)
      (create blockId flag bufSize flushSize flushPeriod startID) b acc) :
    b.layoutPages = b.m_pageCount ∧
    b.toSolidBlock ≠ .error .assertFailed ∧ b.toSolidBlock ≠ .error .pageOverflow := by
  have hl := hrun.layout (layout_create Γ blockId flag bufSize flushSize flushPeriod startID)
  have hpages := layoutPages_eq hl
    (hrun.noStray (noStray_create blockId flag bufSize flushSize flushPeriod startID))
  have hpost := toSolidBlock_post hl hpages
  refine ⟨hpages, ?_, ?_⟩
  · intro herr
    rw [herr] at hpost
    exact hpost.1 rfl
  · intro herr
    rw [herr] at hpost
    exact hpost.2 rfl

/-! ## A full block with a stray table -/

def firstRows : List Op :=
  [.append (rowRecord 65536 [1, 0, 0, 0] length_fourBytes_lt) quietIo,
   .append (rowRecord 131072 [1, 0, 0, 0] length_fourBytes_lt) quietIo]

/-- The step condition of a record that is not refused for its log offset, as a test. -/
def isAccounted (Γ : MetaDataCollection I) (b : AppendingBlock I) (op : Op)
    (_ : AppendingBlockStaus) : Bool :=
  (op.tableMeta Γ).all fun m => (b.m_tableDatas.find m.m_id).isSome || m.indexCount = 0 ||
    decide (b.m_recordCount < maxRecordInBlock ∧
      b.m_pageCount + 1 + m.indexCount < b.m_maxPageCount ∧
      b.m_size + max op.size DEFAULT_PAGE_SIZE < b.m_maxSize)

theorem accounted_of_isAccounted {op : Op} {s : AppendingBlockStaus}
    (h : isAccounted Γ b op s = true) : Accounted Γ b op s := by
  refine .inr fun m hm => ?_
  simp only [isAccounted, hm, Option.all_some, Bool.or_eq_true, decide_eq_true_eq] at h
  rcases h with (h | h) | h
  · exact .inl (Option.isSome_iff_exists.mp h)
  · exact .inr (.inl h)
  · exact .inr (.inr h)

/-- Both tables of three rows find room in the block, and the accounting is exact after them. -/
theorem pageCount_exact_of_run_crossed :
    ∃ b : AppendingBlock noIndex, Run twoTables (Accounted twoTables) wideBlock b crossedRows ∧
      b.m_tableDatas.entries.length = 3 ∧ b.layoutPages = b.m_pageCount ∧
      b.toSolidBlock ≠ .error .assertFailed ∧ b.toSolidBlock ≠ .error .pageOverflow := by
  have hexec : (exec twoTables (isAccounted twoTables) crossedOps (wideBlock, []) >>= fun x =>
      .ok (x.2, x.1.m_tableDatas.entries.length)) = .ok (crossedRows, 3) := by rfl
  obtain ⟨⟨b, acc⟩, hb, hret⟩ := Exec.of_bind hexec
  obtain ⟨rfl, hentries⟩ := Prod.mk.inj (Except.ok.inj hret)
  have hrun : Run twoTables (Accounted twoTables) wideBlock b crossedRows :=
    run_of_exec (fun _ _ _ _ => accounted_of_isAccounted) .nil hb
  exact ⟨b, hrun, hentries,
    pageCount_exact_of_run twoTables 1 { appending := true } (2 ^ 22) 0 0 0 hrun⟩

/-- A block of 1 MB has room for one page of rows.  The first row of a second table is refused,
    but the table stays registered: `toSolidBlock` has three pages to lay out where two are
    counted, and writes behind the page array. -/
theorem toSolidBlock_overflows :
    ∃ b : AppendingBlock noIndex, ∃ acc, Run twoTables (fun _ _ _ => True) smallBlock b acc ∧
      b.layoutPages = 3 ∧ b.m_pageCount = 2 ∧ b.toSolidBlock = .error .pageOverflow := by
  have hcounts : (exec twoTables (fun _ _ _ => true) firstRows (smallBlock, []) >>=
      fun x => .ok (x.1.layoutPages, x.1.m_pageCount)) = .ok (3, 2) := by rfl
  have hsolid : (exec twoTables (fun _ _ _ => true) firstRows (smallBlock, []) >>= fun x => x.1.toSolidBlock) =
      .error .pageOverflow := by rfl
  obtain ⟨⟨b, acc⟩, hexec, hret⟩ := Exec.of_bind hcounts
  rw [hexec] at hsolid
  have hpair := Prod.mk.inj (Except.ok.inj hret)
  exact ⟨b, acc, run_of_exec (fun _ _ _ _ _ => trivial) .nil hexec, hpair.1, hpair.2, hsolid⟩

end AppendingBlock

end DBStream.Native
