import DBStream.Spec.DatabaseRuns
import DBStream.Spec.Refusal

/-!
# When `database::insert` ends

`insert` retries with a new block for as long as the current block refuses the record, and
nothing in the retry decreases.  A retry only helps if a fresh block takes the record, so a
record that no fresh block takes keeps `insert` busy until a block cannot be closed
(`insert_ends_iff`).
-/

namespace DBStream.Native

variable {I : IndexImpl} {Γ : MetaDataCollection I}

/-! ## What a fresh block takes -/

/-- The page size a table starts with. -/
def firstPageSize (m : Option (TableMeta I)) : Nat :=
  m.elim 4096 fun _ => DEFAULT_PAGE_SIZE

/-- No block of this configuration takes a record of `size` bytes: the first page of its table,
    with one page id for each index, is over the limits of an empty block. -/
structure Config.TooSmallFor (cfg : Config) (m : Option (TableMeta I)) (size : Nat) : Prop where
  table : ∀ m', m = some m' → ∃ t, TableData.init m' = .ok t
  limits : cfg.m_blockDefaultSize / (32 * 1204) % 2 ^ 16 ≤ 1 + m.elim 0 TableMeta.indexCount ∨
    cfg.m_blockDefaultSize ≤ max size (firstPageSize m)

namespace AppendingBlock

variable {b : AppendingBlock I} {r : Record}

/-- A block as `createNewBlock` makes it. -/
def Fresh (cfg : Config) (b : AppendingBlock I) : Prop :=
  ∃ blockId startID prev, b = { cfg.newBlock blockId startID with m_prevBlockID := prev }

theorem Fresh.layout {cfg : Config} (h : Fresh cfg b) : Layout Γ b := by
  obtain ⟨blockId, startID, prev, rfl⟩ := h
  have hl := layout_create Γ blockId cfg.flag cfg.m_blockDefaultSize cfg.m_redoFlushDataSize
    cfg.m_redoFlushPeriod startID
  exact ⟨hl.pageId, hl.table, hl.default, hl.owner, hl.pageCount, hl.tableCount⟩

theorem Fresh.find {cfg : Config} (h : Fresh cfg b) (k : Nat) :
    b.m_tableDatas.find k = if k = 0 then some TableData.default else none := by
  obtain ⟨blockId, startID, prev, rfl⟩ := h
  exact SortedMap.find_singleton ..

theorem Fresh.full_iff {cfg : Config} (h : Fresh cfg b) {m : Option (TableMeta I)}
    (hm : ∀ m', m = some m' → m'.m_id ≠ 0) (size : Nat) :
    b.Full m size ↔
      cfg.m_blockDefaultSize / (32 * 1204) % 2 ^ 16 ≤ 1 + m.elim 0 TableMeta.indexCount ∨
        cfg.m_blockDefaultSize ≤ max size (firstPageSize m) := by
  have hfind := h.find
  obtain ⟨blockId, startID, prev, rfl⟩ := h
  have hcount : ¬ maxRecordInBlock ≤ 0 := by decide
  cases m with
  | none =>
    simp only [Full, pagesFor, pageSizeFor, tableKey, hfind, if_true, Option.bind_some,
      Option.elim_none, firstPageSize]
    simp only [Config.newBlock, create, hcount, false_or, room, TableData.default, pagesTaken,
      TableData.indexCount, Nat.zero_add]
    exact ⟨fun h => h.2, fun h => ⟨rfl, h⟩⟩
  | some m =>
    have hid := hm m rfl
    simp only [Full, pagesFor, pageSizeFor, tableKey, hfind, if_neg hid, Option.bind_none,
      Option.elim_some, firstPageSize]
    simp only [Config.newBlock, create, hcount, false_or, Nat.zero_add, true_and]

theorem Fresh.refuses_iff {cfg : Config} (h : Fresh cfg b) :
    Refuses Γ b r ↔ cfg.TooSmallFor (Γ.metaOf r.data) r.data.length := by
  have hfull := h.full_iff (m := Γ.metaOf r.data) (fun m hm => Γ.metaOf_id_ne_zero hm)
    r.data.length
  have hfind := h.find
  constructor
  · intro href
    refine ⟨?_, hfull.mp href.full⟩
    intro m hm
    obtain ⟨b₁, hb₁⟩ := href.table
    rcases getTableData_cases hb₁ with ⟨-, hknown⟩ | ⟨m', t, hm', -, ht, -⟩
    · obtain ⟨t, ht⟩ := hknown m hm
      rw [hfind, if_neg (Γ.metaOf_id_ne_zero hm)] at ht
      cases ht
    · rw [hm] at hm'
      cases hm'
      exact ⟨t, ht⟩
  · intro hsmall
    have hlog : b.m_maxLogOffset = 0 := by
      obtain ⟨blockId, startID, prev, rfl⟩ := h
      rfl
    -- no table of a fresh block has a page, so there is no tail
    have htail : b.tail (tableKey (Γ.metaOf r.data)) = none := by
      simp only [tail, hfind]
      split <;> rfl
    refine ⟨by rw [hlog]; exact Nat.zero_le _, ?_, ?_, hfull.mpr hsmall.limits⟩
    · rintro ⟨hsome, haddr⟩
      rw [haddr, htail] at hsome
      cases hsome
    · cases hm : Γ.metaOf r.data with
      | none => exact ⟨b, rfl⟩
      | some m =>
        obtain ⟨t, ht⟩ := hsmall.table m hm
        refine ⟨b.register m t, ?_⟩
        simp only [getTableData, hfind, if_neg (Γ.metaOf_id_ne_zero hm), ht]
        rfl

private theorem finishAppendingBlock_of_full {b b' : AppendingBlock I} {r : Record} {io : RedoIo}
    (h : b.append Γ r io = .ok (.B_FULL, b')) (cio : CallIo) :
    (b'.finishAppendingBlock cio).1 = (b.finishAppendingBlock cio).1 := by
  rcases append_cases h with ⟨hs, -⟩ | ⟨-, b₁, hb₁, hcase⟩
  · cases hs
  · have hfinish : ((b₁.finish).finishAppendingBlock cio).1 = (b.finishAppendingBlock cio).1 := by
      rcases getTableData_cases hb₁ with ⟨rfl, -⟩ | ⟨m, t, -, -, -, rfl⟩ <;>
        exact finishAppendingBlock_congr cio rfl rfl rfl rfl
    rcases hcase with ⟨-, rfl, -⟩ | ⟨b₂, t, slot, p, redo, -, -, hredo, hend⟩
    · exact hfinish
    · exact absurd hredo (writeRedo_ne_full _ r io redo)

end AppendingBlock

namespace Database

variable {db : Database I} {r : Record} {env : Nat → CallIo}

/-- `insert` reaches a successful append or an error after finitely many new blocks. -/
def Ends (Γ : MetaDataCollection I) (env : Nat → CallIo) (db : Database I) (r : Record) : Prop :=
  ∃ fuel, insert Γ fuel env db r ≠ .ok none

/-- The block that attempt `k` has to close when it was refused: the current one, then fresh
    ones. -/
def closing (db : Database I) : Nat → AppendingBlock I
  | 0 => db.m_current
  | _ + 1 => db.cfg.newBlock 0 0

private theorem ends_of_stopped (h : db.running = false) : Ends Γ env db r := by
  refine ⟨1, ?_⟩
  simp [insert, h]

theorem ends_of_not_refuses (hl : AppendingBlock.Layout Γ db.m_current)
    (h : ¬ AppendingBlock.Refuses Γ db.m_current r) : Ends Γ env db r := by
  rw [← AppendingBlock.refuses_prepare db.m_tnxId db.m_recordId,
    ← AppendingBlock.append_full_iff hl _ (env 0).append] at h
  refine ⟨1, fun hnone => ?_⟩
  unfold insert at hnone
  split at hnone
  · obtain ⟨⟨s, b⟩, happend, hnone⟩ := Exec.of_bind hnone
    cases s with
    | B_FULL => exact h ⟨b, happend⟩
    | B_OK => cases hnone
    | B_ILLEGAL => cases hnone
    | B_FAULT => cases hnone
  · cases hnone

/-- A refused attempt: the call ends if the block cannot be closed, and otherwise goes on as a call
    on a database with a fresh block. -/
theorem insert_of_refuses (env : Nat → CallIo) (hl : AppendingBlock.Layout Γ db.m_current)
    (hrunning : db.running = true) (h : AppendingBlock.Refuses Γ db.m_current r) :
    ∃ db₁ r₁, AppendingBlock.Fresh db₁.cfg db₁.m_current ∧ db₁.running = true ∧
      db₁.cfg = db.cfg ∧ Γ.metaOf r₁.data = Γ.metaOf r.data ∧ r₁.data.length = r.data.length ∧
      ∀ fuel, insert Γ (fuel + 1) env db r ≠ .ok none ↔
        (db.m_current.finishAppendingBlock (env 0)).1 = false ∨
          insert Γ fuel (fun k => env (k + 1)) db₁ r₁ ≠ .ok none := by
  rw [← AppendingBlock.refuses_prepare db.m_tnxId db.m_recordId,
    ← AppendingBlock.append_full_iff hl _ (env 0).append] at h
  obtain ⟨b, happend⟩ := h
  obtain ⟨redo, hnew⟩ := (db.attempted b).createNewBlock_cases (env 0)
  have hclose : (b.finishAppendingBlock (env 0)).1 =
      (db.m_current.finishAppendingBlock (env 0)).1 :=
    AppendingBlock.finishAppendingBlock_of_full happend (env 0)
  refine ⟨(db.attempted b).rotated redo, r.prepare db.m_tnxId db.m_recordId,
    ⟨_, _, _, rfl⟩, hrunning, rfl, Γ.metaOf_prepare .., r.length_prepare .., ?_⟩
  intro fuel
  rw [insert_full hrunning happend, ← hclose]
  rcases hnew with ⟨hok, hnew⟩ | ⟨hok, hnew⟩
  · change (b.finishAppendingBlock (env 0)).1 = true at hok
    rw [hnew, hok]
    simp
  · change (b.finishAppendingBlock (env 0)).1 = false at hok
    rw [hnew, hok]
    simp

/-- With a fresh block that refuses the record, only a block that cannot be closed ends the
    call. -/
theorem ends_iff_of_fresh (hfresh : AppendingBlock.Fresh db.cfg db.m_current)
    (hrunning : db.running = true)
    (hsmall : db.cfg.TooSmallFor (Γ.metaOf r.data) r.data.length) :
    Ends Γ env db r ↔
      ∃ k, ((db.cfg.newBlock 0 0 : AppendingBlock I).finishAppendingBlock (env k)).1 = false := by
  -- one turn, with the block of the next turn
  have hstep : ∀ {db : Database I} {r : Record} {env : Nat → CallIo},
      AppendingBlock.Fresh db.cfg db.m_current → db.running = true →
      db.cfg.TooSmallFor (Γ.metaOf r.data) r.data.length →
      ∃ db₁ r₁, AppendingBlock.Fresh db₁.cfg db₁.m_current ∧ db₁.running = true ∧
        db₁.cfg = db.cfg ∧ db₁.cfg.TooSmallFor (Γ.metaOf r₁.data) r₁.data.length ∧
        ∀ fuel, insert Γ (fuel + 1) env db r ≠ .ok none ↔
          ((db.cfg.newBlock 0 0 : AppendingBlock I).finishAppendingBlock (env 0)).1 = false ∨
            insert Γ fuel (fun k => env (k + 1)) db₁ r₁ ≠ .ok none := by
    intro db r env hfresh hrunning hsmall
    obtain ⟨db₁, r₁, hfresh₁, hrunning₁, hcfg, hmeta, hlen, hturn⟩ :=
      insert_of_refuses env hfresh.layout hrunning (hfresh.refuses_iff.mpr hsmall)
    have hclose : (db.m_current.finishAppendingBlock (env 0)).1 =
        ((db.cfg.newBlock 0 0 : AppendingBlock I).finishAppendingBlock (env 0)).1 := by
      obtain ⟨blockId, startID, prev, hb⟩ := hfresh
      rw [hb]
      exact AppendingBlock.finishAppendingBlock_congr _ rfl rfl rfl rfl
    rw [hclose] at hturn
    refine ⟨db₁, r₁, hfresh₁, hrunning₁, hcfg, ?_, hturn⟩
    rw [hcfg, hmeta, hlen]
    exact hsmall
  constructor
  · -- induction on the fuel: each turn closes one block
    rintro ⟨fuel, hfuel⟩
    induction fuel generalizing db r env with
    | zero => exact absurd rfl hfuel
    | succ fuel ih =>
      obtain ⟨db₁, r₁, hfresh₁, hrunning₁, hcfg, hsmall₁, hturn⟩ := hstep hfresh hrunning hsmall
      rcases (hturn fuel).mp hfuel with hfail | hnext
      · exact ⟨0, hfail⟩
      · obtain ⟨k, hk⟩ := ih hfresh₁ hrunning₁ hsmall₁ hnext
        rw [hcfg] at hk
        exact ⟨k + 1, hk⟩
  · -- induction on the attempt whose block cannot be closed
    rintro ⟨k, hk⟩
    induction k generalizing db r env with
    | zero =>
      obtain ⟨db₁, r₁, -, -, -, -, hturn⟩ := hstep hfresh hrunning hsmall
      exact ⟨1, (hturn 0).mpr (Or.inl hk)⟩
    | succ k ih =>
      obtain ⟨db₁, r₁, hfresh₁, hrunning₁, hcfg, hsmall₁, hturn⟩ := hstep hfresh hrunning hsmall
      rw [← hcfg] at hk
      obtain ⟨fuel, hfuel⟩ := @ih db₁ r₁ (fun k => env (k + 1)) hfresh₁ hrunning₁ hsmall₁ hk
      exact ⟨fuel + 1, (hturn fuel).mpr (Or.inr hfuel)⟩

/-- `insert` ends unless every new block is too small and every old one can be closed. -/
theorem ends_iff (hl : AppendingBlock.Layout Γ db.m_current) :
    Ends Γ env db r ↔
      db.running = false ∨ ¬ AppendingBlock.Refuses Γ db.m_current r ∨
        ¬ db.cfg.TooSmallFor (Γ.metaOf r.data) r.data.length ∨
        ∃ k, ((db.closing k).finishAppendingBlock (env k)).1 = false := by
  by_cases hrunning : db.running = true
  swap
  · have hstopped := Bool.eq_false_of_not_eq_true hrunning
    simp [ends_of_stopped hstopped, hstopped]
  by_cases href : AppendingBlock.Refuses Γ db.m_current r
  swap
  · simp [ends_of_not_refuses hl href, href]
  obtain ⟨db₁, r₁, hfresh₁, hrunning₁, hcfg, hmeta, hlen, hturn⟩ :=
    insert_of_refuses env hl hrunning href
  have hends : Ends Γ env db r ↔ (db.m_current.finishAppendingBlock (env 0)).1 = false ∨
      Ends Γ (fun k => env (k + 1)) db₁ r₁ := by
    constructor
    · rintro ⟨fuel, hfuel⟩
      cases fuel with
      | zero => exact absurd rfl hfuel
      | succ fuel =>
        apply ((hturn fuel).mp hfuel).imp_right
        intro hnext
        exact ⟨fuel, hnext⟩
    · rintro (hfail | ⟨fuel, hfuel⟩)
      · exact ⟨1, (hturn 0).mpr (Or.inl hfail)⟩
      · exact ⟨fuel + 1, (hturn fuel).mpr (Or.inr hfuel)⟩
  rw [hends]
  simp only [hrunning, Bool.true_eq_false, href, not_true, false_or]
  by_cases hsmall : db.cfg.TooSmallFor (Γ.metaOf r.data) r.data.length
  swap
  · have hnext : ¬ AppendingBlock.Refuses Γ db₁.m_current r₁ := by
      rw [hfresh₁.refuses_iff, hcfg, hmeta, hlen]
      exact hsmall
    simp [ends_of_not_refuses hfresh₁.layout hnext, hsmall]
  rw [ends_iff_of_fresh hfresh₁ hrunning₁ (by rw [hcfg, hmeta, hlen]; exact hsmall), hcfg]
  simp only [hsmall, not_true, false_or]
  constructor
  · rintro (hfail | ⟨k, hk⟩)
    · exact ⟨0, hfail⟩
    · exact ⟨k + 1, hk⟩
  · rintro ⟨k, hk⟩
    cases k with
    | zero => exact Or.inl hk
    | succ k => exact Or.inr ⟨k, hk⟩

/-- In every database reached by any calls, `insert` ends exactly when the database has stopped, the
    current block takes the record or reports an error for it, a fresh block would, or one of the
    blocks to close cannot be closed. -/
theorem insert_ends_iff (Γ : MetaDataCollection I) (cfg : Config) (blockId recordId : Nat)
    (db : Database I) (acc : List Record)
    (hrun : Run Γ (fun _ _ _ => True) (start cfg blockId recordId) db acc)
    (env : Nat → CallIo) (r : Record) :
    Ends Γ env db r ↔
      db.running = false ∨ ¬ AppendingBlock.Refuses Γ db.m_current r ∨
        ¬ db.cfg.TooSmallFor (Γ.metaOf r.data) r.data.length ∨
        ∃ k, ((db.closing k).finishAppendingBlock (env k)).1 = false :=
  ends_iff (hrun.sound (sound_start Γ cfg blockId recordId)).current

private theorem metaOf_noTables (d : List UInt8) : noTables.metaOf d = none := by
  rw [MetaDataCollection.metaOf]
  split <;> rfl

set_option maxRecDepth 4000 in
/-- A block of 1 MB has page ids for the rows of one table.  The row of a second one makes a new block,
    which takes it. -/
theorem insert_ends_iff_crossed : ∃ (db : Database noIndex) (acc : List Record),
    Run twoTables (fun _ _ _ => True) (start oneMbConfig 1 1) db acc ∧ acc.length = 1 ∧
    AppendingBlock.Refuses twoTables db.m_current
      (rowRecord 131072 [1, 0, 0, 0] length_fourBytes_lt) ∧
    Ends twoTables quietEnv db (rowRecord 131072 [1, 0, 0, 0] length_fourBytes_lt) := by
  have hexec : (exec twoTables 2 quietEnv (fun _ _ => true)
      [.insert (rowRecord 65536 [1, 0, 0, 0] length_fourBytes_lt)]
      (start oneMbConfig 1 1, []) >>= fun o => .ok (o.map fun x =>
        (x.2.length, x.1.cfg.m_blockDefaultSize,
          x.1.m_current.append twoTables (rowRecord 131072 [1, 0, 0, 0] length_fourBytes_lt)
            quietIo >>= fun y => .ok y.1))) =
      .ok (some (1, 1024 * 1024, .ok .B_FULL)) := by
    rfl
  obtain ⟨o, hrun, ho⟩ := Exec.of_bind hexec
  obtain ⟨⟨db, acc⟩, rfl, hfacts⟩ := Option.map_eq_some_iff.mp (Except.ok.inj ho)
  simp only [Prod.mk.injEq] at hfacts
  obtain ⟨hlength, hcfg, hfull⟩ := hfacts
  have hdb : Run twoTables (fun _ _ _ => True) (start oneMbConfig 1 1) db acc :=
    run_of_exec (fun _ _ _ _ => trivial) .nil hrun
  have hlayout := (hdb.sound (sound_start twoTables oneMbConfig 1 1)).current
  have hrefuses := (AppendingBlock.append_full_iff hlayout
    (rowRecord 131072 [1, 0, 0, 0] length_fourBytes_lt) quietIo).mp (by
      obtain ⟨⟨s, b⟩, happend, hs⟩ := Exec.of_bind hfull
      cases hs
      exact ⟨b, happend⟩)
  refine ⟨db, acc, hdb, hlength, hrefuses, ?_⟩
  apply (insert_ends_iff twoTables oneMbConfig 1 1 db acc hdb quietEnv _).mpr
  -- 27 page ids are more than the two that a table with one index takes
  refine Or.inr (Or.inr (Or.inl fun hsmall => ?_))
  have hlimits := hsmall.limits
  rw [hcfg] at hlimits
  exact absurd hlimits (by decide)

/-- With the smallest block size a block has no page id to give away: `insert` makes new blocks for
    a DDL record of 51 bytes and never ends. -/
theorem insert_never_ends :
    ¬ Ends noTables quietEnv (start smallestConfig 1 1) (ddlRecord 1 one_lt_maxText) := by
  have hsmall : smallestConfig.TooSmallFor (noTables.metaOf (ddlRecord 1 one_lt_maxText).data)
      (ddlRecord 1 one_lt_maxText).data.length := by
    rw [metaOf_noTables]
    exact ⟨fun m hm => (nomatch hm), Or.inl (by simp [smallestConfig, sampleConfig])⟩
  rw [ends_iff_of_fresh ⟨1, 1, 0, rfl⟩ rfl hsmall]
  rintro ⟨k, hk⟩
  cases hk

end Database

end DBStream.Native
