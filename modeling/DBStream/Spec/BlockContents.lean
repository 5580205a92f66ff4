import DBStream.Spec.BlockLayout

/-!
# The records of an appending block

A run is a sequence of calls of `allocMemForRecord` and `append` on one block, with
any results.  `Contents` says where the accepted records lie after a run: record `i`
is under position `i` of `m_recordIDs`, its bytes are in the page it was placed on,
and the row changes of each table are on the table's list.  Nothing moves afterwards
(`Extends`), so one lemma per change is enough.
-/

namespace DBStream.Native

variable {I : IndexImpl}

namespace AppendingBlock

variable {Γ : MetaDataCollection I} {b b₁ b₂ b' : AppendingBlock I}

/-! ## Runs -/

/-- A call on the write path. -/
inductive Op where
  | alloc (tableId size : Nat)
  | append (r : Record) (io : RedoIo)

/-- The meta of the table a call is about. -/
def Op.tableMeta (Γ : MetaDataCollection I) : Op → Option (TableMeta I)
  | .alloc tableId _ => Γ.get tableId
  | .append r _ => Γ.metaOf r.data

/-- The number of bytes a call asks for. -/
def Op.size : Op → Nat
  | .alloc _ size => size
  | .append r _ => r.data.length

def step (Γ : MetaDataCollection I) (b : AppendingBlock I) :
    Op → Exec (AppendingBlockStaus × AppendingBlock I)
  | .alloc tableId size => b.allocMemForTable (Γ.get tableId) size
  | .append r io => b.append Γ r io

/-- The record a call adds to the block. -/
def accepted : Op → AppendingBlockStaus → List Record
  | .append r _, .B_OK => [r]
  | _, _ => []

/-- `Run Γ P b₀ b acc`: calls that satisfy `P` lead from `b₀` to `b`, and `acc` are the records
    appended on the way. -/
inductive Run (Γ : MetaDataCollection I)
    (P : AppendingBlock I → Op → AppendingBlockStaus → Prop) (b₀ : AppendingBlock I) :
    AppendingBlock I → List Record → Prop
  | nil : Run Γ P b₀ b₀ []
  | snoc {b b' : AppendingBlock I} {acc : List Record} {op : Op} {s : AppendingBlockStaus}
      (run : Run Γ P b₀ b acc) (cond : P b op s) (call : b.step Γ op = .ok (s, b')) :
      Run Γ P b₀ b' (acc ++ accepted op s)

/-- The calls of a list in order, as long as they pass a test: the block and the records appended,
    from those before. -/
def exec (Γ : MetaDataCollection I) (test : AppendingBlock I → Op → AppendingBlockStaus → Bool) :
    List Op → AppendingBlock I × List Record → Exec (AppendingBlock I × List Record)
  | [], x => .ok x
  | op :: ops, x => do
    let (s, b) ← x.1.step Γ op
    if test x.1 op s then exec Γ test ops (b, x.2 ++ accepted op s) else .error .endless

variable {b₀ : AppendingBlock I}

variable {P : AppendingBlock I → Op → AppendingBlockStaus → Prop}

/-- A run under a condition is one under any weaker condition. -/
theorem Run.imp {Q : AppendingBlock I → Op → AppendingBlockStaus → Prop} {b : AppendingBlock I}
    {acc : List Record} (hrun : Run Γ P b₀ b acc) (h : ∀ b op s, P b op s → Q b op s) :
    Run Γ Q b₀ b acc := by
  induction hrun with
  | nil => exact .nil
  | snoc run cond call ih => exact ih.snoc (h _ _ _ cond) call

theorem run_of_exec {test : AppendingBlock I → Op → AppendingBlockStaus → Bool} {ops : List Op}
    (hP : ∀ b, ∀ op ∈ ops, ∀ s, test b op s = true → P b op s)
    {x y : AppendingBlock I × List Record} (hx : Run Γ P b₀ x.1 x.2)
    (h : exec Γ test ops x = .ok y) : Run Γ P b₀ y.1 y.2 := by
  induction ops generalizing x with
  | nil =>
    cases h
    exact hx
  | cons op ops ih =>
    obtain ⟨⟨s, b⟩, hcall, h⟩ := Exec.of_bind h
    dsimp only at h
    split at h
    case isTrue htest =>
      have hcond := hP _ op (List.mem_cons_self ..) s htest
      exact ih (fun b op hop => hP b op (List.mem_cons_of_mem _ hop)) (hx.snoc hcond hcall) h
    case isFalse => cases h

theorem Op.known (Γ : MetaDataCollection I) (op : Op) :
    ∀ m, op.tableMeta Γ = some m → Γ.get m.m_id = some m := by
  intro m hm
  cases op with
  | alloc tableId size =>
    have hid := Γ.get_id _ _ hm
    rw [hid]
    exact hm
  | append r io =>
    simp only [tableMeta, MetaDataCollection.metaOf] at hm
    split at hm
    · have hid := Γ.get_id _ _ hm
      rw [hid]
      exact hm
    · cases hm

variable {s : AppendingBlockStaus}

theorem step_cases {op : Op} (h : b.step Γ op = .ok (s, b')) :
    (s = .B_ILLEGAL ∧ b' = b) ∨
    ∃ b₁, b.getTableData (op.tableMeta Γ) = .ok b₁ ∧
      ((s = .B_FULL ∧ b' = b₁.finish ∧
          b₁.allocMemForRecord (tableKey (op.tableMeta Γ)) op.size = .ok (s, b')) ∨
       ∃ b₂, Opened b₁ (tableKey (op.tableMeta Γ)) op.size b₂ ∧
        ∃ t slot p, Ready b₂ (tableKey (op.tableMeta Γ)) op.size slot t p ∧
          ((accepted op s = [] ∧ (b' = b₂ ∨ ∃ r redo, op.size = r.data.length ∧
              b' = (b₂.place slot p r).setRedo redo)) ∨
           ∃ r io redo tables, op = .append r io ∧ s = .B_OK ∧ Indexed Γ b₂ r t tables ∧
              b' = b₂.store slot p r redo tables)) := by
  cases op with
  | alloc tableId size =>
    obtain ⟨b₁, hb₁, halloc⟩ := Exec.of_bind h
    refine Or.inr ⟨b₁, hb₁, ?_⟩
    rcases allocMemForRecord_cases halloc with ⟨rfl, rfl, _⟩ | ⟨rfl, hopened, t, slot, p, hready⟩
    · exact Or.inl ⟨rfl, rfl, halloc⟩
    · exact Or.inr ⟨b', hopened, t, slot, p, hready, Or.inl ⟨rfl, Or.inl rfl⟩⟩
  | append r io =>
    rcases append_cases h with ⟨hs, hb, -⟩ | ⟨-, b₁, hb₁, hcase⟩
    · exact Or.inl ⟨hs, hb⟩
    · refine Or.inr ⟨b₁, hb₁, ?_⟩
      rcases hcase with ⟨hs, hb, -, halloc⟩ | ⟨b₂, t, slot, p, redo, hopened, hready, -, hend⟩
      · exact Or.inl ⟨hs, hb, halloc⟩
      · refine Or.inr ⟨b₂, hopened, t, slot, p, hready, ?_⟩
        rcases hend with ⟨hs, rfl⟩ | ⟨rfl, tables, hidx, rfl⟩
        · refine Or.inl ⟨?_, Or.inr ⟨r, redo, rfl, rfl⟩⟩
          cases s <;> first | rfl | exact absurd rfl hs
        · exact Or.inr ⟨r, io, redo, tables, rfl, rfl, hidx, rfl⟩

theorem Layout.step (hb : Layout Γ b) {op : Op}
    (h : b.step Γ op = .ok (s, b')) : Layout Γ b' := by
  rcases step_cases h with ⟨-, rfl⟩ | ⟨b₁, hb₁, hcase⟩
  · exact hb
  · have hl₁ := hb.getTableData (op.known Γ) hb₁
    rcases hcase with ⟨-, rfl, -⟩ | ⟨b₂, hopened, t, slot, p, hready, hend⟩
    · exact ⟨hl₁.pageId, hl₁.table, hl₁.default, hl₁.owner, hl₁.pageCount, hl₁.tableCount⟩
    · have hl₂ := hl₁.opened hopened
      rcases hend with ⟨-, rfl | ⟨r, redo, -, rfl⟩⟩ | ⟨r, io, redo, tables, rfl, -, hidx, rfl⟩
      · exact hl₂
      · have hl₃ := hl₂.place hready r
        exact ⟨hl₃.pageId, hl₃.table, hl₃.default, hl₃.owner, hl₃.pageCount, hl₃.tableCount⟩
      · exact hl₂.store hready hidx

theorem Run.layout
    {acc : List Record} (h₀ : Layout Γ b₀) (h : Run Γ P b₀ b acc) :
    Layout Γ b := by
  induction h with
  | nil => exact h₀
  | snoc _ _ hcall ih => exact ih.step hcall

/-! ## Nothing moves -/

/-- Pages only grow at their end, tables only get pages, and the positions of the records
    counted in `b` stay. -/
structure Extends (b b' : AppendingBlock I) : Prop where
  minId : b'.m_minRecordId = b.m_minRecordId
  positions : ∀ i, i < b.m_recordCount → b'.m_recordIDs i = b.m_recordIDs i
  pages : ∀ slot p, b.m_pages slot = some p →
    ∃ p' post, b'.m_pages slot = some p' ∧ p'.pageData = p.pageData ++ post
  tables : ∀ k t, b.m_tableDatas.find k = some t →
    ∃ t', b'.m_tableDatas.find k = some t' ∧ ∀ slot ∈ t.pages, slot ∈ t'.pages

theorem Extends.of_same (hmin : b'.m_minRecordId = b.m_minRecordId)
    (hpos : b'.m_recordIDs = b.m_recordIDs) (hpages : b'.m_pages = b.m_pages)
    (htables : ∀ k t, b.m_tableDatas.find k = some t →
      ∃ t', b'.m_tableDatas.find k = some t' ∧ ∀ slot ∈ t.pages, slot ∈ t'.pages) :
    Extends b b' where
  minId := hmin
  positions := fun i _ => by rw [hpos]
  pages := fun slot p h => ⟨p, [], by rw [hpages, h], by rw [List.append_nil]⟩
  tables := htables

theorem Extends.refl (b : AppendingBlock I) : Extends b b :=
  .of_same rfl rfl rfl fun _ t h => ⟨t, h, fun _ hs => hs⟩

variable {m : Option (TableMeta I)}

theorem Extends.getTableData (h : b.getTableData m = .ok b₁) :
    Extends b b₁ ∧ b₁.m_recordCount = b.m_recordCount := by
  rcases getTableData_cases h with ⟨rfl, -⟩ | ⟨m', t, rfl, hfind, -, rfl⟩
  · exact ⟨.refl b₁, rfl⟩
  · refine ⟨.of_same rfl rfl rfl ?_, rfl⟩
    intro k t' h
    refine ⟨t', ?_, fun _ hs => hs⟩
    rw [register, SortedMap.find_insert_of_ne _ ?_, h]
    intro hk
    rw [← hk, h] at hfind
    cases hfind

theorem Extends.opened (hb : Layout Γ b) {key size : Nat} (h : Opened b key size b') :
    Extends b b' ∧ b'.m_recordCount = b.m_recordCount := by
  cases h with
  | found => exact ⟨.refl b, rfl⟩
  | made t ht _ _ =>
    refine ⟨⟨rfl, fun _ _ => rfl, ?_, ?_⟩, rfl⟩
    · intro slot p hp
      have hlt := (hb.pageId slot p hp).2
      have hpos := Layout.pagesTaken_pos t
      have hne : slot ≠ b.m_pageCount + pagesTaken t - 1 := by omega
      refine ⟨p, [], ?_, by rw [List.append_nil]⟩
      show Function.update b.m_pages _ _ slot = some p
      rw [Function.update_of_ne hne, hp]
    · intro k t' h
      by_cases hk : k = key
      · subst hk
        rw [ht] at h
        cases h
        refine ⟨_, by rw [newPage, SortedMap.find_modify_self, ht]; rfl, fun s hs => ?_⟩
        exact List.mem_append_left _ hs
      · exact ⟨t', by rw [newPage, SortedMap.find_modify_of_ne _ _ hk, h], fun _ hs => hs⟩

variable {t : TableData I}

theorem Extends.place {key size slot : Nat} {p : Page} (r : Record)
    (redo : RedoState) (h : Ready b key size slot t p) :
    Extends b ((b.place slot p r).setRedo redo) where
  minId := rfl
  positions := fun i hi => Function.update_of_ne (by omega) _ _
  pages := by
    intro s q hq
    by_cases hs : s = slot
    · subst hs
      rw [h.page] at hq
      cases hq
      exact ⟨_, _, Function.update_self .., rfl⟩
    · refine ⟨q, [], ?_, by rw [List.append_nil]⟩
      show Function.update b.m_pages _ _ s = some q
      rw [Function.update_of_ne hs, hq]
  tables := fun _ t h => ⟨t, h, fun _ hs => hs⟩

theorem step_ids {op : Op} (h : b.step Γ op = .ok (s, b')) :
    b'.m_blockID = b.m_blockID ∧ b'.m_minRecordId = b.m_minRecordId := by
  rcases step_cases h with ⟨-, rfl⟩ | ⟨b₁, hb₁, hcase⟩
  · exact ⟨rfl, rfl⟩
  · have h₁ : b₁.m_blockID = b.m_blockID ∧ b₁.m_minRecordId = b.m_minRecordId := by
      rcases getTableData_cases hb₁ with ⟨rfl, -⟩ | ⟨m, t, -, -, -, rfl⟩
      · exact ⟨rfl, rfl⟩
      · exact ⟨rfl, rfl⟩
    rcases hcase with ⟨-, rfl, -⟩ | ⟨b₂, hopened, t, slot, p, -, hend⟩
    · exact h₁
    · have h₂ : b₂.m_blockID = b.m_blockID ∧ b₂.m_minRecordId = b.m_minRecordId := by
        cases hopened with
        | found => exact h₁
        | made t ht _ _ => exact h₁
      rcases hend with ⟨-, rfl | ⟨r, redo, -, rfl⟩⟩ | ⟨r, io, redo, tables, -, -, -, rfl⟩
      · exact h₂
      · exact h₂
      · exact h₂

theorem recordCount_le_step {op : Op}
    (hle : b.m_recordCount ≤ maxRecordInBlock) (h : b.step Γ op = .ok (s, b')) :
    b'.m_recordCount ≤ maxRecordInBlock := by
  rcases step_cases h with ⟨-, rfl⟩ | ⟨b₁, hb₁, hcase⟩
  · exact hle
  · have hcount₁ := (Extends.getTableData hb₁).2
    rcases hcase with ⟨-, rfl, -⟩ | ⟨b₂, hop, t, slot, p, hready, hend⟩
    · show b₁.m_recordCount ≤ _
      omega
    · have hcount₂ := hready.count
      rcases hend with ⟨-, rfl | ⟨r, redo, -, rfl⟩⟩ | ⟨r, io, redo, tables, -, -, -, rfl⟩
      · omega
      · show b₂.m_recordCount ≤ _
        omega
      · show b₂.m_recordCount + 1 ≤ _
        omega

theorem Run.recordCount_le
    {acc : List Record} (h₀ : b₀.m_recordCount ≤ maxRecordInBlock)
    (h : Run Γ P b₀ b acc) : b.m_recordCount ≤ maxRecordInBlock := by
  induction h with
  | nil => exact h₀
  | snoc _ _ call ih => exact recordCount_le_step ih call

/-! ## Where the records are -/

/-- Record number `i` of the block is `r`, at `offset` of the page in `slot`. -/
structure Placed (b : AppendingBlock I) (i : Nat) (r : Record) (slot offset : Nat) : Prop where
  position : b.m_recordIDs i = some (RecordPosition.set slot offset)
  bytes : ∃ p pre post, b.m_pages slot = some p ∧ pre.length = offset ∧
    p.pageData = pre ++ (r.stamped (b.m_minRecordId + i) ++ post)

variable {r : Record}

theorem Placed.extends {i slot offset : Nat} (h : Placed b i r slot offset)
    (hi : i < b.m_recordCount) (hext : Extends b b') : Placed b' i r slot offset := by
  obtain ⟨p, pre, post, hp, hlen, hdata⟩ := h.bytes
  obtain ⟨p', more, hp', hdata'⟩ := hext.pages slot p hp
  refine ⟨by rw [hext.positions i hi, h.position], p', pre, post ++ more, hp', hlen, ?_⟩
  rw [hdata', hdata, hext.minId]
  simp

/-- The numbers of the row changes of table `k` among the records `acc`. -/
def rowsOf (Γ : MetaDataCollection I) (k : Nat) (acc : List Record) : List Nat :=
  (acc.zipIdx.filter fun x => (Γ.metaOf x.1.data).map TableMeta.m_id = some k).map Prod.snd

theorem rowsOf_snoc (k : Nat) (acc : List Record) (r : Record) :
    rowsOf Γ k (acc ++ [r]) = rowsOf Γ k acc ++
      if (Γ.metaOf r.data).map TableMeta.m_id = some k then [acc.length] else [] := by
  simp only [rowsOf, List.zipIdx_append, List.filter_append, List.map_append]
  congr 1
  simp only [List.zipIdx_cons, List.zipIdx_nil, List.filter_cons, List.filter_nil, Nat.zero_add]
  split <;> simp_all

theorem mem_rowsOf {k i : Nat} {acc : List Record} :
    i ∈ rowsOf Γ k acc ↔
      ∃ r, acc[i]? = some r ∧ (Γ.metaOf r.data).map TableMeta.m_id = some k := by
  simp only [rowsOf, List.mem_map, List.mem_filter, decide_eq_true_eq, Prod.exists,
    exists_eq_right, List.mem_zipIdx_iff_getElem?]

/-- The records of a block.  `Q` is what is known about the places of all of them. -/
structure Contents (Γ : MetaDataCollection I) (Q : Nat → Nat → Prop) (b : AppendingBlock I)
    (acc : List Record) : Prop where
  count : b.m_recordCount = acc.length
  placed : ∀ i r, acc[i]? = some r → ∃ slot offset t, Q slot offset ∧ Placed b i r slot offset ∧
    b.m_tableDatas.find (tableKey (Γ.metaOf r.data)) = some t ∧ slot ∈ t.pages
  recordIds : ∀ k t, b.m_tableDatas.find k = some t → t.recordIds = rowsOf Γ k acc
  known : ∀ r ∈ acc, RecordHead.isDML r.data = true → ∃ m, Γ.metaOf r.data = some m

theorem contents_create (Γ : MetaDataCollection I) (Q : Nat → Nat → Prop) (blockId : Nat)
    (flag : BlockFlag) (bufSize : Nat) (flushSize flushPeriod : Int) (startID : Nat) :
    Contents Γ Q (create blockId flag bufSize flushSize flushPeriod startID : AppendingBlock I)
      [] where
  count := rfl
  placed := fun i r h => by simp at h
  recordIds := by
    intro k t h
    simp only [create, SortedMap.find_singleton] at h
    split at h
    · cases h
      rfl
    · cases h
  known := fun r h => nomatch h

variable {Q : Nat → Nat → Prop} {acc : List Record}

theorem Contents.extends (hc : Contents Γ Q b acc) (hext : Extends b b')
    (hcount : b'.m_recordCount = b.m_recordCount)
    (hids : ∀ k t, b'.m_tableDatas.find k = some t → t.recordIds = rowsOf Γ k acc) :
    Contents Γ Q b' acc where
  count := by rw [hcount, hc.count]
  placed := by
    intro i r hi
    obtain ⟨slot, offset, t, hQ, hplaced, ht, hslot⟩ := hc.placed i r hi
    obtain ⟨hlt, -⟩ := List.getElem?_eq_some_iff.mp hi
    obtain ⟨t', ht', hpages⟩ := hext.tables _ t ht
    exact ⟨slot, offset, t', hQ, hplaced.extends (by rw [hc.count]; exact hlt) hext, ht',
      hpages slot hslot⟩
  recordIds := hids
  known := hc.known

theorem Contents.rowsOf_eq_nil (hc : Contents Γ Q b acc) {k : Nat}
    (hk : b.m_tableDatas.find k = none) : rowsOf Γ k acc = [] := by
  rw [List.eq_nil_iff_forall_not_mem]
  intro i hi
  obtain ⟨r, hr, hmeta⟩ := mem_rowsOf.mp hi
  obtain ⟨slot, offset, t, -, -, ht, -⟩ := hc.placed i r hr
  obtain ⟨m, hm, rfl⟩ := Option.map_eq_some_iff.mp hmeta
  rw [hm, tableKey, hk] at ht
  cases ht

theorem Contents.getTableData (hc : Contents Γ Q b acc)
    (h : b.getTableData m = .ok b₁) : Contents Γ Q b₁ acc := by
  obtain ⟨hext, hcount⟩ := Extends.getTableData h
  refine hc.extends hext hcount ?_
  rcases getTableData_cases h with ⟨rfl, -⟩ | ⟨m', t, rfl, hfind, ht, rfl⟩
  · exact hc.recordIds
  · intro k t' h
    rcases b.m_tableDatas.find_insert_cases hfind h with ⟨rfl, rfl⟩ | ⟨_, h⟩
    · obtain ⟨-, -, -, hids, -⟩ := init_spec ht
      rw [hids, hc.rowsOf_eq_nil hfind]
    · exact hc.recordIds k t' h

theorem Contents.opened (hb : Layout Γ b) (hc : Contents Γ Q b acc) {key size : Nat}
    (h : Opened b key size b') : Contents Γ Q b' acc := by
  obtain ⟨hext, hcount⟩ := Extends.opened hb h
  refine hc.extends hext hcount ?_
  cases h with
  | found => exact hc.recordIds
  | made t ht _ _ =>
    intro k t' h
    rcases b.m_tableDatas.find_modify_cases ht h with ⟨rfl, rfl⟩ | ⟨_, h⟩
    · exact hc.recordIds _ t ht
    · exact hc.recordIds k t' h

/-- A stored record lies behind the page that was ready, and is on the list of its table. -/
theorem Contents.store (hb : Layout Γ b) (hc : Contents Γ Q b acc) {slot : Nat}
    {p : Page} {redo : RedoState}
    {tables : SortedMap Nat (TableData I)}
    (h : Ready b (tableKey (Γ.metaOf r.data)) r.data.length slot t p)
    (hidx : Indexed Γ b r t tables) (hQ : Q slot p.pageUsedSize) :
    Contents Γ Q (b.store slot p r redo tables) (acc ++ [r]) := by
  have hplace := Extends.place r redo h
  have hslot : slot ∈ t.pages := by
    have hcur := (hb.table _ t h.table).current
    rw [h.current] at hcur
    exact List.mem_of_getLast? hcur.symm
  -- the tables keep their pages
  have htables : ∀ k u, b.m_tableDatas.find k = some u →
      ∃ u', tables.find k = some u' ∧ u'.pages = u.pages := by
    intro k u hu
    cases hidx with
    | row m t' hmeta hadd =>
      obtain ⟨-, hpages, -⟩ := addRecord_spec hadd
      by_cases hk : k = m.m_id
      · subst hk
        have ht := h.table
        rw [hmeta, tableKey, hu] at ht
        cases ht
        exact ⟨t', by rw [SortedMap.find_modify_self, hu, Option.map_some], hpages⟩
      · exact ⟨u, by rw [SortedMap.find_modify_of_ne _ _ hk, hu], rfl⟩
    | other _ _ => exact ⟨u, hu, rfl⟩
  have hext : Extends b (b.store slot p r redo tables) := by
    refine ⟨hplace.minId, hplace.positions, hplace.pages, ?_⟩
    intro k u hu
    obtain ⟨u', hu', hpages⟩ := htables k u hu
    exact ⟨u', hu', fun s hs => by rw [hpages]; exact hs⟩
  refine ⟨?_, ?_, ?_, ?_⟩
  · show b.m_recordCount + 1 = _
    rw [List.length_append, List.length_singleton, hc.count]
  · intro i r' hi
    by_cases hlt : i < acc.length
    · -- an older record
      rw [List.getElem?_append_left hlt] at hi
      obtain ⟨s, offset, u, hQ', hplaced, hu, hs⟩ := hc.placed i r' hi
      obtain ⟨u', hu', hpages⟩ := htables _ u hu
      exact ⟨s, offset, u', hQ', hplaced.extends (by rw [hc.count]; exact hlt) hext, hu',
        by rw [hpages]; exact hs⟩
    · -- the record just stored
      rw [List.getElem?_append_right (by omega)] at hi
      obtain ⟨hi0, hr⟩ := List.getElem?_eq_some_iff.mp hi
      have hieq : i = b.m_recordCount := by
        rw [hc.count]
        simp only [List.length_singleton] at hi0
        omega
      simp only [List.getElem_singleton] at hr
      subst hr hieq
      obtain ⟨u', hu', hpages⟩ := htables _ t h.table
      have hid := (hb.pageId slot p h.page).1
      refine ⟨slot, p.pageUsedSize, u', hQ, ⟨?_, ?_⟩, hu', by rw [hpages]; exact hslot⟩
      · show Function.update b.m_recordIDs _ _ b.m_recordCount = _
        rw [Function.update_self, hid]
      · refine ⟨_, p.pageData, [], Function.update_self .., rfl, ?_⟩
        rw [Page.write_pageData, List.append_nil]
        rfl
  · intro k u hu
    rw [rowsOf_snoc]
    change tables.find k = some u at hu
    cases hidx with
    | row m t' hmeta hadd =>
      obtain ⟨-, -, -, -, hids, -⟩ := addRecord_spec hadd
      have ht := h.table
      rw [hmeta] at ht
      rcases b.m_tableDatas.find_modify_cases ht hu with ⟨hk, rfl⟩ | ⟨hk, hu⟩
      · rw [hids, hc.recordIds _ t ht, hmeta, hk, hc.count]
        simp [tableKey]
      · have hne : m.m_id ≠ k := fun h => hk h.symm
        rw [hc.recordIds k u hu, hmeta]
        simp [hne]
    | other _ hmeta =>
      rw [hc.recordIds k u hu, hmeta]
      simp
  · intro r' hr' hdml
    rcases List.mem_append.mp hr' with hr' | hr'
    · exact hc.known r' hr' hdml
    · rw [List.mem_singleton.mp hr'] at hdml ⊢
      cases hidx with
      | row m t' hmeta hadd => exact ⟨m, hmeta⟩
      | other hno _ =>
        rw [hno] at hdml
        cases hdml

/-! ## Where a call puts its record -/

/-- The place behind the current page of a table, if it has room for `size` bytes. -/
def room (b : AppendingBlock I) (t : TableData I) (size : Nat) : Option (Nat × Nat) := do
  let slot ← t.current
  let p ← b.m_pages slot
  if p.pageUsedSize + size ≤ p.pageSize then some (slot, p.pageUsedSize) else none

/-- Slot and offset at which a record of `size` bytes would be put: behind the current page of
    its table, or at the start of the next new page. -/
def landing (b : AppendingBlock I) (m : Option (TableMeta I)) (size : Nat) : Nat × Nat :=
  match b.m_tableDatas.find (tableKey m) with
  | none => (b.m_pageCount + m.elim 0 TableMeta.indexCount, 0)
  | some t => (b.room t size).getD (b.m_pageCount + pagesTaken t - 1, 0)

private theorem room_of_ready {key size slot : Nat} {p : Page}
    (h : Ready b key size slot t p) : b.room t size = some (slot, p.pageUsedSize) := by
  simp [room, h.current, h.page, h.room]

theorem room_eq_none {size : Nat} (h : b.hasRoom t size = .ok false) :
    b.room t size = none := by
  simp only [hasRoom] at h
  split at h
  · rename_i hcur
    simp [room, hcur]
  · rename_i slot hcur
    obtain ⟨p, hp, hret⟩ := Exec.of_bind h
    have hno : decide (p.pageUsedSize + size ≤ p.pageSize) = false := Except.ok.inj hret
    simp [room, hcur, deref_eq_ok hp, of_decide_eq_false hno]

/-- A row lands in the page that is ready for it, behind what is used of it. -/
theorem landing_eq {size slot : Nat} {p : Page}
    (hb₁ : b.getTableData m = .ok b₁) (hopened : Opened b₁ (tableKey m) size b₂)
    (h : Ready b₂ (tableKey m) size slot t p) : b.landing m size = (slot, p.pageUsedSize) := by
  cases hopened with
  | found =>
    rcases getTableData_cases hb₁ with ⟨rfl, -⟩ | ⟨m', t', rfl, hfind, ht', rfl⟩
    · rw [landing, h.table]
      simp only [room_of_ready h, Option.getD_some]
    · -- a table just registered has no page
      have ht := h.table
      rw [tableKey, register, SortedMap.find_insert_self _ hfind] at ht
      cases ht
      obtain ⟨-, -, hcur, -⟩ := init_spec ht'
      rw [h.current] at hcur
      cases hcur
  | made t₁ ht₁ hfull _ =>
    -- the page is new: its slot is the next one, and it is empty
    have hslot : slot = b₁.m_pageCount + pagesTaken t₁ - 1 := by
      have ht := h.table
      rw [newPage, SortedMap.find_modify_self, ht₁] at ht
      cases ht
      exact (Option.some.inj h.current).symm
    have hused : p.pageUsedSize = 0 := by
      have hp := h.page
      rw [hslot] at hp
      simp only [newPage, Function.update_self] at hp
      cases hp
      rfl
    rw [hused, hslot]
    rcases getTableData_cases hb₁ with ⟨rfl, -⟩ | ⟨m', t', rfl, hfind, ht', rfl⟩
    · rw [landing, ht₁]
      simp only [room_eq_none hfull, Option.getD_none]
    · obtain ⟨hmeta, -, hcur, -⟩ := init_spec ht'
      rw [tableKey, register, SortedMap.find_insert_self _ hfind] at ht₁
      cases ht₁
      simp only [landing, tableKey, hfind, Option.elim_some, register, pagesTaken, hcur,
        TableData.indexCount, hmeta]
      congr 1
      omega

/-- What is asked of the place of a record. -/
def LandsIn (Γ : MetaDataCollection I) (Q : Nat → Nat → Prop) (b : AppendingBlock I) : Op → Prop
  | .alloc _ _ => True
  | .append r _ =>
    Q (b.landing (Γ.metaOf r.data) r.data.length).1 (b.landing (Γ.metaOf r.data) r.data.length).2

theorem Contents.step (hb : Layout Γ b) (hc : Contents Γ Q b acc) {op : Op}
    (hQ : s = .B_OK → LandsIn Γ Q b op)
    (h : b.step Γ op = .ok (s, b')) : Contents Γ Q b' (acc ++ accepted op s) := by
  rcases step_cases h with ⟨rfl, rfl⟩ | ⟨b₁, hb₁, hcase⟩
  · have hnil : accepted op .B_ILLEGAL = [] := by cases op <;> rfl
    rw [hnil, List.append_nil]
    exact hc
  · have hl₁ := hb.getTableData (op.known Γ) hb₁
    have hc₁ := hc.getTableData hb₁
    rcases hcase with ⟨rfl, rfl, -⟩ | ⟨b₂, hopened, t, slot, p, hready, hend⟩
    · have hnil : accepted op .B_FULL = [] := by cases op <;> rfl
      rw [hnil, List.append_nil]
      exact hc₁.extends (.of_same rfl rfl rfl fun _ t h => ⟨t, h, fun _ hs => hs⟩) rfl
        hc₁.recordIds
    · have hl₂ := hl₁.opened hopened
      have hc₂ := hc₁.opened hl₁ hopened
      rcases hend with ⟨hnil, hb'⟩ | ⟨r, io, redo, tables, rfl, rfl, hidx, rfl⟩
      · rw [hnil, List.append_nil]
        rcases hb' with rfl | ⟨r, redo, -, rfl⟩
        · exact hc₂
        · exact hc₂.extends (.place r redo hready) rfl hc₂.recordIds
      · refine hc₂.store hl₂ hready hidx ?_
        have hland := landing_eq hb₁ hopened hready
        have hQ := hQ rfl
        simp only [LandsIn] at hQ
        rw [show b.landing (Γ.metaOf r.data) r.data.length = _ from hland] at hQ
        exact hQ

theorem Run.contents
    (h₀ : Layout Γ b₀) (hc₀ : Contents Γ Q b₀ [])
    (hP : ∀ b op, P b op .B_OK → LandsIn Γ Q b op) (h : Run Γ P b₀ b acc) :
    Contents Γ Q b acc := by
  induction h with
  | nil => exact hc₀
  | snoc run cond call ih =>
    apply ih.step (run.layout h₀) _ call
    rintro rfl
    exact hP _ _ cond

/-! ## Reading a record back -/

theorem Placed.recordAt {i slot offset : Nat} (h : Placed b i r slot offset) :
    ∃ p, b.m_pages slot = some p ∧
      Native.recordAt p.pageData offset = .ok (r.stamped (b.m_minRecordId + i)) := by
  obtain ⟨p, pre, post, hp, hlen, hdata⟩ := h.bytes
  refine ⟨p, hp, ?_⟩
  rw [hdata, ← hlen]
  apply recordAt_append
  · rw [Record.length_stamped]
    exact r.head_le
  · rw [Record.size_stamped, Record.length_stamped]

theorem Contents.getRecordByIdx (hc : Contents Γ RecordPosition.Fits b acc) {i : Nat}
    (hi : acc[i]? = some r) :
    b.getRecordByIdx i = .ok (r.stamped (b.m_minRecordId + i)) := by
  obtain ⟨slot, offset, t, hfits, hplaced, -, -⟩ := hc.placed i r hi
  obtain ⟨p, hp, hat⟩ := hplaced.recordAt
  unfold AppendingBlock.getRecordByIdx
  rw [hplaced.position]
  simp only [RecordPosition.pageId_set hfits, RecordPosition.offsetInPage_set hfits, hp,
    deref_some]
  exact hat

theorem Contents.getRecord (hb : Layout Γ b) (hc : Contents Γ RecordPosition.Fits b acc)
    {i : Nat} (hi : acc[i]? = some r) :
    b.getRecord (b.m_minRecordId + i) = .ok (r.stamped (b.m_minRecordId + i)) := by
  obtain ⟨slot, offset, t, hfits, hplaced, -, -⟩ := hc.placed i r hi
  obtain ⟨p, hp, hat⟩ := hplaced.recordAt
  have hid := (hb.pageId slot p hp).1
  unfold AppendingBlock.getRecord
  rw [if_neg (by omega), Nat.add_sub_cancel_left, hplaced.position]
  simp only [RecordPosition.pageId_set hfits, RecordPosition.offsetInPage_set hfits, hp,
    deref_some]
  show (if p.pageId = slot then _ else _) = _
  rw [if_pos hid]
  exact hat

end AppendingBlock

def noIndex : IndexImpl where
  KeyMeta := Unit
  Index := Unit
  create := fun _ => .ok ()
  append := fun _ _ _ => .ok ()
  solidPage := fun _ _ => some []

def noTables : MetaDataCollection noIndex where
  get := fun _ => none
  get_id := by
    intro i m h
    cases h
  get_zero := rfl

/-- A DDL record: sql mode, charset id, an empty database name and a statement of `n` letters. -/
def ddlRecord (n : Nat) (h : n < 2 ^ 20) : Record :=
  .build 5 0 0 0 (List.replicate 11 0 ++ (List.replicate n 120 ++ [0])) (by
    simp only [recordHeadSize, List.length_append, List.length_replicate, List.length_singleton]
    omega)

theorem one_lt_maxText : 1 < 2 ^ 20 := by decide

theorem length_ddlRecord (n : Nat) (h : n < 2 ^ 20) : (ddlRecord n h).data.length = n + 50 := by
  rw [ddlRecord, Record.length_build, recordHeadSize]
  simp only [List.length_append, List.length_replicate, List.length_singleton]
  omega

theorem type_ddlRecord (n : Nat) (h : n < 2 ^ 20) :
    RecordHead.type (ddlRecord n h).data = RecordType.R_DDL.code := by
  rw [ddlRecord, Record.type_build]
  rfl

theorem logOffset_ddlRecord (n : Nat) (h : n < 2 ^ 20) :
    RecordHead.logOffset (ddlRecord n h).data = 0 := by
  rw [ddlRecord, Record.logOffset_build _ _ _ _ _ _ (by omega)]

def keyedTable (id : Nat) : TableMeta noIndex where
  m_id := id
  m_primaryKey := some ()
  m_uniqueKeys := []

def twoTables : MetaDataCollection noIndex where
  get := fun i => if i = 65536 ∨ i = 131072 then some (keyedTable i) else none
  get_id := by
    intro i m h
    split at h
    · cases h
      rfl
    · cases h
  get_zero := rfl

/-- A row of a table, with its column bytes. -/
def rowRecord (tableId : Nat) (columns : List UInt8) (h : columns.length < 2 ^ 20) : Record :=
  .build 0 0 0 0 (LE.bytes 8 tableId ++ columns) (by
    simp only [recordHeadSize, List.length_append, LE.length_bytes]
    omega)

theorem length_fourBytes_lt : ([1, 0, 0, 0] : List UInt8).length < 2 ^ 20 := by decide

def quietIo : RedoIo where
  openFd := 3
  seekOk := true
  headWritten := 8
  dataWritten := 2 ^ 32
  synced := true
  now := 0
  flushedAt := 0

namespace AppendingBlock

def smallBlock : AppendingBlock noIndex := create 1 { appending := true } (2 ^ 20) 0 0 0

def wideBlock : AppendingBlock noIndex := create 1 { appending := true } (2 ^ 22) 0 0 0

/-- Rows of two tables in turn; the table with the smaller id comes second. -/
def crossedRows : List Record :=
  [rowRecord 131072 [1, 0, 0, 0] length_fourBytes_lt, rowRecord 65536 [1, 0, 0, 0] length_fourBytes_lt,
   rowRecord 131072 [2, 0, 0, 0] (by decide)]

def crossedOps : List Op := crossedRows.map (Op.append · quietIo)

end AppendingBlock

end DBStream.Native
