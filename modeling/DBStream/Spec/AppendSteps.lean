import DBStream.Native.AppendingBlock

/-!
# What the write path of an appending block can do

One inversion lemma for each operation: a call that does not fault is one of a few
named changes of the state.  The invariants are proved change by change
(`register`, `finish`, `newPage`, `place`, `store`) and never unfold `append`.
-/

namespace DBStream.Native

variable {I : IndexImpl}

theorem RedoState.writeRedo_status (r : RedoState) (m_minLogOffset : Nat) (io : RedoIo)
    (data : List UInt8) :
    (r.writeRedo m_minLogOffset io data).1 = .B_OK ∨
      (r.writeRedo m_minLogOffset io data).1 = .B_FAULT := by
  unfold RedoState.writeRedo
  generalize (if fileHandleValid r.m_redoFd then (true, r)
    else r.openRedoFile true m_minLogOffset io) = opened
  by_cases hopened : opened.1
  · simp only [hopened, if_true]
    by_cases hshort : io.dataWritten < data.length
    · simp [hshort]
    · simp only [hshort, if_false]
      by_cases hdue : ((opened.2.writeFile (data.take io.dataWritten)).flushDue data.length
          io.now).1
      · by_cases hsync : io.synced <;> simp [hdue, hsync]
      · simp [hdue]
  · simp [hopened]

namespace AppendingBlock

variable {Γ : MetaDataCollection I} {b b' : AppendingBlock I}

/-- The table of a meta enters the block. -/
def register (b : AppendingBlock I) (m : TableMeta I) (t : TableData I) : AppendingBlock I :=
  { b with
    m_tableDatas := b.m_tableDatas.insert m.m_id t
    m_tableCount := b.m_tableCount + 1 }

/-- The record is written behind page `p`, which lies in `slot`. -/
def place (b : AppendingBlock I) (slot : Nat) (p : Page) (r : Record) : AppendingBlock I :=
  { b with
    m_pages := Function.update b.m_pages slot
      (some (p.write (r.stamped (b.m_minRecordId + b.m_recordCount))))
    m_recordIDs := Function.update b.m_recordIDs b.m_recordCount
      (some (RecordPosition.set p.pageId p.pageUsedSize)) }

/-- The table under `key` has a current page with room for `size` bytes, and the block has room
    for one more record. -/
structure Ready (b : AppendingBlock I) (key size slot : Nat) (t : TableData I) (p : Page) :
    Prop where
  table : b.m_tableDatas.find key = some t
  current : t.current = some slot
  page : b.m_pages slot = some p
  room : p.pageUsedSize + size ≤ p.pageSize
  count : b.m_recordCount < maxRecordInBlock

/-- The limits a new page of the table has to respect. -/
structure CanOpen (b : AppendingBlock I) (t : TableData I) (size : Nat) : Prop where
  count : b.m_recordCount < maxRecordInBlock
  pages : b.m_pageCount + pagesTaken t < b.m_maxPageCount
  bytes : b.m_size + max size t.pageSize < b.m_maxSize

/-- `b'` is `b` after a page with room was found or made. -/
inductive Opened (b : AppendingBlock I) (key size : Nat) : AppendingBlock I → Prop
  | found : Opened b key size b
  | made (t : TableData I) (htable : b.m_tableDatas.find key = some t)
      (hfull : b.hasRoom t size = .ok false) (hopen : CanOpen b t size) :
      Opened b key size (b.newPage key (max size t.pageSize) (pagesTaken t))

theorem getTableData_cases {m : Option (TableMeta I)} (h : b.getTableData m = .ok b') :
    (b' = b ∧ ∀ m', m = some m' → ∃ t, b.m_tableDatas.find m'.m_id = some t) ∨
    ∃ m' t, m = some m' ∧ b.m_tableDatas.find m'.m_id = none ∧ TableData.init m' = .ok t ∧
      b' = b.register m' t := by
  cases m with
  | none =>
    cases h
    exact Or.inl ⟨rfl, fun m' hm => nomatch hm⟩
  | some m =>
    simp only [getTableData] at h
    cases hfind : b.m_tableDatas.find m.m_id with
    | some t =>
      rw [hfind] at h
      cases h
      refine Or.inl ⟨rfl, fun m' hm => ?_⟩
      cases hm
      exact ⟨t, hfind⟩
    | none =>
      rw [hfind] at h
      obtain ⟨t, ht, hret⟩ := Exec.of_bind h
      cases hret
      exact Or.inr ⟨m, t, rfl, hfind, ht, rfl⟩

variable {p : Page}

variable {t : TableData I}

theorem hasRoom_eq {size slot : Nat} (hslot : t.current = some slot)
    (hp : b.m_pages slot = some p) :
    b.hasRoom t size = .ok (decide (p.pageUsedSize + size ≤ p.pageSize)) := by
  unfold hasRoom
  rw [hslot]
  show (deref (b.m_pages slot) >>= fun current => _) = _
  rw [hp]
  rfl

private theorem hasRoom_eq_true {size : Nat} (h : b.hasRoom t size = .ok true) :
    ∃ slot p, t.current = some slot ∧ b.m_pages slot = some p ∧
      p.pageUsedSize + size ≤ p.pageSize := by
  simp only [hasRoom] at h
  split at h
  · cases h
  · rename_i slot hslot
    obtain ⟨p, hp, hret⟩ := Exec.of_bind h
    refine ⟨slot, p, hslot, deref_eq_ok hp, ?_⟩
    have : decide (p.pageUsedSize + size ≤ p.pageSize) = true := Except.ok.inj hret
    exact of_decide_eq_true this

variable {s : AppendingBlockStaus}

theorem allocMemForRecord_cases {key size : Nat}
    (h : b.allocMemForRecord key size = .ok (s, b')) :
    (s = .B_FULL ∧ b' = b.finish ∧ (maxRecordInBlock ≤ b.m_recordCount ∨
      ∃ t, b.m_tableDatas.find key = some t ∧ b.hasRoom t size = .ok false ∧
        ¬ CanOpen b t size)) ∨
    (s = .B_OK ∧ Opened b key size b' ∧ ∃ t slot p, Ready b' key size slot t p) := by
  simp only [allocMemForRecord] at h
  split at h
  · rename_i hcount
    cases h
    exact Or.inl ⟨rfl, rfl, Or.inl hcount⟩
  · rename_i hcount
    obtain ⟨t, ht, h⟩ := Exec.of_bind h
    obtain ⟨room, hroom, h⟩ := Exec.of_bind h
    have htable := deref_eq_ok ht
    cases room with
    | true =>
      cases h
      obtain ⟨slot, p, hslot, hp, hfit⟩ := hasRoom_eq_true hroom
      exact Or.inr ⟨rfl, .found, t, slot, p, htable, hslot, hp, hfit, by omega⟩
    | false =>
      simp only [Bool.false_eq_true, if_false] at h
      split at h
      · rename_i hfull
        cases h
        refine Or.inl ⟨rfl, rfl, Or.inr ⟨t, htable, hroom, fun hopen => ?_⟩⟩
        have hp := hopen.pages
        have hb := hopen.bytes
        omega
      · rename_i hfit
        cases h
        have hopen : CanOpen b t size := ⟨by omega, by omega, by omega⟩
        refine Or.inr ⟨rfl, .made t htable hroom hopen,
          t.pushPage (b.m_pageCount + pagesTaken t - 1), b.m_pageCount + pagesTaken t - 1,
          _, ?_, rfl, Function.update_self .., ?_, hopen.count⟩
        · rw [newPage, SortedMap.find_modify_self, htable, Option.map_some]
        · simp [Page.alloc, Page.pageUsedSize]

variable {r : Record}

theorem placeRecord_cases {key : Nat} (h : b.placeRecord key r = .ok b') :
    ∃ t slot p, Ready b key r.data.length slot t p ∧ b' = b.place slot p r := by
  obtain ⟨t, ht, h⟩ := Exec.of_bind h
  obtain ⟨slot, hslot, h⟩ := Exec.of_bind h
  obtain ⟨p, hp, h⟩ := Exec.of_bind h
  split at h
  · rename_i hfit
    cases h
    exact ⟨t, slot, p, ⟨deref_eq_ok ht, deref_eq_ok hslot, deref_eq_ok hp, hfit.2, hfit.1⟩, rfl⟩
  · cases h

theorem copyRecord_cases
    (h : b.copyRecord Γ r = .ok (s, b')) :
    ∃ b₁, b.getTableData (Γ.metaOf r.data) = .ok b₁ ∧
      ((s = .B_FULL ∧ b' = b₁.finish ∧
          ¬ (r.addr.isSome ∧ r.addr = b₁.tail (tableKey (Γ.metaOf r.data))) ∧
          b₁.allocMemForRecord (tableKey (Γ.metaOf r.data)) r.data.length = .ok (s, b')) ∨
       (s = .B_OK ∧ ∃ b₂ t slot p,
          Opened b₁ (tableKey (Γ.metaOf r.data)) r.data.length b₂ ∧
          Ready b₂ (tableKey (Γ.metaOf r.data)) r.data.length slot t p ∧
          b' = b₂.place slot p r)) := by
  obtain ⟨b₁, hb₁, h⟩ := Exec.of_bind h
  refine ⟨b₁, hb₁, ?_⟩
  split at h
  · -- the record was built in place
    obtain ⟨b₂, hb₂, hret⟩ := Exec.of_bind h
    cases hret
    obtain ⟨t, slot, p, hready, rfl⟩ := placeRecord_cases hb₂
    exact Or.inr ⟨rfl, b₁, t, slot, p, .found, hready, rfl⟩
  · rename_i hplace
    obtain ⟨⟨s₂, b₂⟩, hb₂, h⟩ := Exec.of_bind h
    rcases allocMemForRecord_cases hb₂ with ⟨rfl, rfl, _⟩ | ⟨rfl, hopened, _⟩
    · cases h
      exact Or.inl ⟨rfl, rfl, hplace, hb₂⟩
    · simp only [if_true] at h
      obtain ⟨_, _, h⟩ := Exec.of_bind h
      obtain ⟨b₃, hb₃, hret⟩ := Exec.of_bind h
      cases hret
      obtain ⟨t, slot, p, hready, rfl⟩ := placeRecord_cases hb₃
      exact Or.inr ⟨rfl, b₂, t, slot, p, hopened, hready, rfl⟩

/-- The tables after the index part of `append`: a row change is entered in its table, other
    records in none. -/
inductive Indexed (Γ : MetaDataCollection I) (b : AppendingBlock I) (r : Record)
    (t : TableData I) : SortedMap Nat (TableData I) → Prop
  | row (m : TableMeta I) (t' : TableData I) (hmeta : Γ.metaOf r.data = some m)
      (hadd : t.addRecord (r.stamped (b.m_minRecordId + b.m_recordCount)) b.m_recordCount =
        .ok t') :
      Indexed Γ b r t (b.m_tableDatas.modify m.m_id fun _ => t')
  | other (hdml : RecordHead.isDML r.data = false) (hmeta : Γ.metaOf r.data = none) :
      Indexed Γ b r t b.m_tableDatas

theorem indexRecord_cases
    (h : b.indexRecord Γ r = .ok b')
    (ht : b.m_tableDatas.find (tableKey (Γ.metaOf r.data)) = some t) :
    ∃ tables, Indexed Γ b r t tables ∧ b' = { b with m_tableDatas := tables } := by
  simp only [indexRecord] at h
  split at h
  · obtain ⟨m, hm, h⟩ := Exec.of_bind h
    obtain ⟨t₁, ht₁, h⟩ := Exec.of_bind h
    obtain ⟨t', ht', hret⟩ := Exec.of_bind h
    cases hret
    have hmeta := deref_eq_ok hm
    rw [hmeta, tableKey, deref_eq_ok ht₁] at ht
    cases ht
    exact ⟨_, .row m t' hmeta ht', rfl⟩
  · rename_i hdml
    cases h
    refine ⟨_, .other (Bool.eq_false_of_not_eq_true hdml) ?_, rfl⟩
    rw [MetaDataCollection.metaOf, if_neg hdml]

variable {b₁ b₂ : AppendingBlock I}

theorem writeRedo_place {m : Option (TableMeta I)} {key size slot : Nat}
    (hb₁ : b.getTableData m = .ok b₁)
    (hopened : Opened b₁ key size b₂) (r : Record) (io : RedoIo) :
    (b₂.place slot p r).writeRedo r io = b.writeRedo r io := by
  have h₁ : (b₁.place slot p r).writeRedo r io = b.writeRedo r io := by
    rcases getTableData_cases hb₁ with ⟨rfl, -⟩ | ⟨m', t, -, -, -, rfl⟩
    · rfl
    · rfl
  cases hopened with
  | found => exact h₁
  | made t _ _ _ => exact h₁

/-- The state a successful `append` leaves, from the state in which the record's place is
    ready. -/
def store (b : AppendingBlock I) (slot : Nat) (p : Page) (r : Record) (redo : RedoState)
    (tables : SortedMap Nat (TableData I)) : AppendingBlock I :=
  { (b.place slot p r).setRedo redo with m_tableDatas := tables }.acceptRecord r

/-- All that `append` can do: refuse the record, find no room, or place it and then index it or not.
    -/
theorem append_cases {io : RedoIo}
    (h : b.append Γ r io = .ok (s, b')) :
    (s = .B_ILLEGAL ∧ b' = b ∧ RecordHead.logOffset r.data < b.m_maxLogOffset) ∨
    b.m_maxLogOffset ≤ RecordHead.logOffset r.data ∧
    ∃ b₁, b.getTableData (Γ.metaOf r.data) = .ok b₁ ∧
      ((s = .B_FULL ∧ b' = b₁.finish ∧
          ¬ (r.addr.isSome ∧ r.addr = b₁.tail (tableKey (Γ.metaOf r.data))) ∧
          b₁.allocMemForRecord (tableKey (Γ.metaOf r.data)) r.data.length = .ok (s, b')) ∨
       ∃ b₂ t slot p redo, Opened b₁ (tableKey (Γ.metaOf r.data)) r.data.length b₂ ∧
          Ready b₂ (tableKey (Γ.metaOf r.data)) r.data.length slot t p ∧
          (b₂.place slot p r).writeRedo r io = (s, redo) ∧
          ((s ≠ .B_OK ∧ b' = (b₂.place slot p r).setRedo redo) ∨
           (s = .B_OK ∧ ∃ tables, Indexed Γ b₂ r t tables ∧
              b' = b₂.store slot p r redo tables))) := by
  simp only [append] at h
  split at h
  · rename_i hlog
    cases h
    exact Or.inl ⟨rfl, rfl, hlog⟩
  · rename_i hlog
    refine Or.inr ⟨by omega, ?_⟩
    obtain ⟨⟨s₁, b₃⟩, hcopy, h⟩ := Exec.of_bind h
    obtain ⟨b₁, hb₁, hcase⟩ := copyRecord_cases hcopy
    refine ⟨b₁, hb₁, ?_⟩
    rcases hcase with ⟨rfl, rfl, hplace, halloc⟩ | ⟨rfl, b₂, t, slot, p, hopened, hready, rfl⟩
    · cases h
      exact Or.inl ⟨rfl, rfl, hplace, halloc⟩
    · refine Or.inr ⟨b₂, t, slot, p, ((b₂.place slot p r).writeRedo r io).2, hopened, hready, ?_⟩
      simp only [if_true] at h
      split at h
      · rename_i hs
        obtain ⟨b₄, hb₄, hret⟩ := Exec.of_bind h
        cases hret
        obtain ⟨tables, hindexed, rfl⟩ := indexRecord_cases hb₄ hready.table
        refine ⟨Prod.ext hs rfl, Or.inr ⟨rfl, tables, ?_, rfl⟩⟩
        -- indexing sees the tables, the first id and the count, which the page write keeps
        cases hindexed with
        | row m t' hmeta hadd => exact .row m t' hmeta hadd
        | other hdml hmeta => exact .other hdml hmeta
      · rename_i hs
        cases h
        exact ⟨rfl, Or.inl ⟨hs, rfl⟩⟩

/-! ## Calls that succeed -/

theorem allocMemForRecord_made {key size : Nat}
    (ht : b.m_tableDatas.find key = some t) (hfull : b.hasRoom t size = .ok false)
    (hopen : CanOpen b t size) :
    b.allocMemForRecord key size =
      .ok (.B_OK, b.newPage key (max size t.pageSize) (pagesTaken t)) := by
  have hcount := hopen.count
  have hpages := hopen.pages
  have hbytes := hopen.bytes
  unfold allocMemForRecord
  rw [if_neg (by omega), ht, deref_some]
  show (b.hasRoom t size >>= fun room => _) = _
  rw [hfull]
  rw [if_neg (by omega)]
  rfl

theorem allocMemForRecord_full {key size : Nat}
    (ht : b.m_tableDatas.find key = some t) (hfull : b.hasRoom t size = .ok false)
    (hopen : ¬ CanOpen b t size) : b.allocMemForRecord key size = .ok (.B_FULL, b.finish) := by
  unfold allocMemForRecord
  by_cases hcount : maxRecordInBlock ≤ b.m_recordCount
  · rw [if_pos hcount]
  · rw [if_neg hcount, ht, deref_some]
    show (b.hasRoom t size >>= fun room => _) = _
    rw [hfull]
    rw [if_pos]
    · rfl
    · by_contra hlimits
      apply hopen
      exact ⟨by omega, by omega, by omega⟩

private theorem placeRecord_ready {key slot : Nat}
    (h : Ready b key r.data.length slot t p) : b.placeRecord key r = .ok (b.place slot p r) := by
  unfold placeRecord
  rw [h.table, deref_some]
  show (deref t.current >>= fun slot => _) = _
  rw [h.current, deref_some]
  show (deref (b.m_pages slot) >>= fun current => _) = _
  rw [h.page, deref_some]
  show (if _ then _ else _) = _
  rw [if_pos ⟨h.count, h.room⟩]
  rfl

theorem append_full {io : RedoIo}
    (hlog : b.m_maxLogOffset ≤ RecordHead.logOffset r.data)
    (hb₁ : b.getTableData (Γ.metaOf r.data) = .ok b₁)
    (hplace : ¬ (r.addr.isSome ∧ r.addr = b₁.tail (tableKey (Γ.metaOf r.data))))
    (halloc : b₁.allocMemForRecord (tableKey (Γ.metaOf r.data)) r.data.length =
      .ok (.B_FULL, b₂)) :
    b.append Γ r io = .ok (.B_FULL, b₂) := by
  have hcopy : b.copyRecord Γ r = .ok (.B_FULL, b₂) := by
    show (b.getTableData (Γ.metaOf r.data) >>= fun b => _) = _
    rw [hb₁]
    show (if r.addr.isSome ∧ r.addr = b₁.tail (tableKey (Γ.metaOf r.data)) then _ else _) = _
    rw [if_neg hplace]
    rw [halloc]
    rfl
  unfold append
  rw [if_neg (by omega), hcopy]
  rfl

theorem allocMemForRecord_opened {key size slot : Nat}
    (hopened : Opened b key size b') (h : Ready b' key size slot t p) :
    b.allocMemForRecord key size = .ok (.B_OK, b') := by
  cases hopened with
  | found =>
    have hcount := h.count
    unfold allocMemForRecord
    rw [if_neg (by omega), h.table, deref_some]
    show (b.hasRoom t size >>= fun room => _) = _
    rw [hasRoom_eq h.current h.page, decide_eq_true h.room]
    rfl
  | made t ht hfull hopen => exact allocMemForRecord_made ht hfull hopen

theorem indexRecord_indexed {tables : SortedMap Nat (TableData I)}
    (hidx : Indexed Γ b r t tables)
    (ht : b.m_tableDatas.find (tableKey (Γ.metaOf r.data)) = some t) :
    b.indexRecord Γ r = .ok { b with m_tableDatas := tables } := by
  unfold indexRecord
  cases hidx with
  | row m t' hmeta hadd =>
    have hdml : RecordHead.isDML r.data = true := by
      by_contra hno
      rw [MetaDataCollection.metaOf, if_neg hno] at hmeta
      cases hmeta
    rw [hmeta, tableKey] at ht
    rw [if_pos hdml, hmeta, deref_some]
    show (deref (b.m_tableDatas.find m.m_id) >>= fun t => _) = _
    rw [ht, deref_some]
    show (t.addRecord _ _ >>= fun t => _) = _
    rw [hadd]
    rfl
  | other hdml _ =>
    rw [if_neg (by rw [hdml]; decide)]
    rfl

/-- A record of a kind `copyRecord` can load, from a foreign buffer, is stored when there is
    memory for it and its keys can be indexed. -/
theorem append_copied {io : RedoIo} {slot : Nat}
    {tables : SortedMap Nat (TableData I)} (haddr : r.addr = none)
    (hload : loadCopy (Γ.metaOf r.data) r = .ok ())
    (hlog : b.m_maxLogOffset ≤ RecordHead.logOffset r.data)
    (hb₁ : b.getTableData (Γ.metaOf r.data) = .ok b₁)
    (halloc : b₁.allocMemForRecord (tableKey (Γ.metaOf r.data)) r.data.length = .ok (.B_OK, b₂))
    (hready : Ready b₂ (tableKey (Γ.metaOf r.data)) r.data.length slot t p)
    (hidx : Indexed Γ b₂ r t tables) (hredo : b.m_flag.hasRedo = false) :
    b.append Γ r io = .ok (.B_OK, b₂.store slot p r b.redo tables) := by
  have hcopy : b.copyRecord Γ r = .ok (.B_OK, b₂.place slot p r) := by
    show (b.getTableData (Γ.metaOf r.data) >>= fun b => _) = _
    rw [hb₁]
    show (if r.addr.isSome ∧ r.addr = b₁.tail (tableKey (Γ.metaOf r.data)) then _ else _) = _
    rw [if_neg (by simp [haddr])]
    rw [halloc]
    show (loadCopy (Γ.metaOf r.data) r >>= fun x => _) = _
    rw [hload]
    rw [placeRecord_ready hready]
    rfl
  have hopened : Opened b₁ (tableKey (Γ.metaOf r.data)) r.data.length b₂ := by
    rcases allocMemForRecord_cases halloc with ⟨hs, -⟩ | ⟨-, hopened, -⟩
    · cases hs
    · exact hopened
  have hwrite : (b₂.place slot p r).writeRedo r io = (.B_OK, b.redo) := by
    rw [writeRedo_place hb₁ hopened, AppendingBlock.writeRedo, hredo]
    rfl
  have hindex : ((b₂.place slot p r).setRedo b.redo).indexRecord Γ r =
      .ok { (b₂.place slot p r).setRedo b.redo with m_tableDatas := tables } := by
    refine indexRecord_indexed ?_ hready.table
    -- indexing sees the tables, the first id and the count, which the page write keeps
    cases hidx with
    | row m t' hmeta hadd => exact .row m t' hmeta hadd
    | other hdml hmeta => exact .other hdml hmeta
  unfold append
  rw [if_neg (by omega), hcopy]
  show (if ((b₂.place slot p r).writeRedo r io).1 = .B_OK then _ else _) = _
  rw [if_pos (congrArg Prod.fst hwrite)]
  show (((b₂.place slot p r).setRedo ((b₂.place slot p r).writeRedo r io).2).indexRecord Γ r >>=
    fun b => _) = _
  rw [hwrite, hindex]
  rfl

theorem append_ddl {io : RedoIo} {b₂ : AppendingBlock I} {slot : Nat}
    (haddr : r.addr = none)
    (htype : RecordHead.type r.data = RecordType.R_DDL.code)
    (hlog : b.m_maxLogOffset ≤ RecordHead.logOffset r.data)
    (halloc : b.allocMemForRecord 0 r.data.length = .ok (.B_OK, b₂))
    (hready : Ready b₂ 0 r.data.length slot t p) (hredo : b.m_flag.hasRedo = false) :
    b.append Γ r io = .ok (.B_OK, b₂.store slot p r b.redo b₂.m_tableDatas) := by
  have hdml : RecordHead.isDML r.data = false := by
    simp [RecordHead.isDML, htype, RecordType.code]
  have hmeta : Γ.metaOf r.data = none := by
    rw [MetaDataCollection.metaOf, hdml]
    rfl
  have hload : loadCopy (Γ.metaOf r.data) r = .ok () := by
    simp only [loadCopy, hdml, htype]
    rfl
  rw [← show tableKey (Γ.metaOf r.data) = 0 by rw [hmeta]; rfl] at halloc hready
  exact append_copied haddr hload hlog (by rw [hmeta]; rfl) halloc hready (.other hdml hmeta) hredo

end AppendingBlock

end DBStream.Native
