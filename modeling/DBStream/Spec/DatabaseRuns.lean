import DBStream.Native.Database
import DBStream.Spec.BlockContents

/-!
# Calls and runs of the database

`insert` and `allocMemForRecord` are loops: an attempt on the current block, and after a
full block a rotation and the next attempt.  `insert_cases` and `allocMemForRecord_cases`
say what one turn can do.  A run is a sequence of calls that end; the layout invariant
holds of every block of a database reached by a run (`Run.sound`).
-/

namespace DBStream.Native

variable {I : IndexImpl} {Γ : MetaDataCollection I}

theorem AppendingBlock.finishAppendingBlock_eq (b : AppendingBlock I) (io : CallIo) :
    ∃ redo, (b.finishAppendingBlock io).2 = b.setRedo redo := by
  unfold finishAppendingBlock
  split
  · exact ⟨b.redo, rfl⟩
  · split
    · exact ⟨_, rfl⟩
    · exact ⟨b.redo, rfl⟩

theorem AppendingBlock.finishAppendingBlock_congr {b b' : AppendingBlock I} (io : CallIo)
    (hflushed : b'.m_flag.flushed = b.m_flag.flushed)
    (hhas : b'.m_flag.hasRedo = b.m_flag.hasRedo) (hredo : b'.redo = b.redo)
    (hlog : b'.m_minLogOffset = b.m_minLogOffset) :
    (b'.finishAppendingBlock io).1 = (b.finishAppendingBlock io).1 := by
  simp only [finishAppendingBlock, hflushed, hhas, hredo, hlog]
  split
  · rfl
  · split <;> rfl

theorem AppendingBlock.Layout.setRedo {b : AppendingBlock I} (h : Layout Γ b)
    (redo : RedoState) : Layout Γ (b.setRedo redo) :=
  ⟨h.pageId, h.table, h.default, h.owner, h.pageCount, h.tableCount⟩

namespace Database

variable {db db' : Database I} {r : Record} {env : Nat → CallIo} {ok : Bool}

/-! ## One turn of a call -/

/-- The database after an attempt of `insert`, which has drawn an id. -/
def attempted (db : Database I) (b : AppendingBlock I) : Database I :=
  { db with m_recordId := db.m_recordId + 1, m_current := b }

/-- The database with another current block. -/
def setCurrent (db : Database I) (b : AppendingBlock I) : Database I := { db with m_current := b }

/-- The block `createNewBlock` makes. -/
def nextBlock (db : Database I) : AppendingBlock I :=
  { db.cfg.newBlock (db.m_current.m_blockID + 1) db.m_recordId with
    m_prevBlockID := db.m_current.m_blockID }

/-- The current block is closed, with the given redo state, and the next one takes its place. -/
def rotated (db : Database I) (redo : RedoState) : Database I :=
  { db with
    finished := db.finished ++ [db.m_current.setRedo redo]
    m_current := db.nextBlock
    dangling := false }

/-- The current block could not be closed. -/
def unrotated (db : Database I) (redo : RedoState) : Database I :=
  { db with m_current := db.m_current.setRedo redo, dangling := true }

theorem createNewBlock_cases (db : Database I) (io : CallIo) : ∃ redo,
    ((db.m_current.finishAppendingBlock io).1 = true ∧
      db.createNewBlock io = (true, db.rotated redo)) ∨
    ((db.m_current.finishAppendingBlock io).1 = false ∧
      db.createNewBlock io = (false, db.unrotated redo)) := by
  obtain ⟨redo, hredo⟩ := db.m_current.finishAppendingBlock_eq io
  refine ⟨redo, ?_⟩
  rw [rotated, unrotated, ← hredo]
  unfold createNewBlock
  cases hok : (db.m_current.finishAppendingBlock io).1
  · exact Or.inr ⟨rfl, by simp only [hok, Bool.false_eq_true, if_false]⟩
  · exact Or.inl ⟨rfl, by simp only [hok, if_true]; rfl⟩

theorem insert_full {fuel : Nat} {b : AppendingBlock I} (hrunning : db.running = true)
    (h : db.m_current.append Γ (r.prepare db.m_tnxId db.m_recordId) (env 0).append =
      .ok (.B_FULL, b)) :
    insert Γ (fuel + 1) env db r =
      if ((db.attempted b).createNewBlock (env 0)).1 then
        insert Γ fuel (fun k => env (k + 1)) ((db.attempted b).createNewBlock (env 0)).2
          (r.prepare db.m_tnxId db.m_recordId)
      else .ok (some (false,
        { ((db.attempted b).createNewBlock (env 0)).2 with running := false })) := by
  rw [insert, if_pos hrunning]
  show (db.m_current.append Γ (r.prepare db.m_tnxId db.m_recordId) (env 0).append >>=
    fun x => _) = _
  rw [h]
  rfl

theorem allocMemForRecord_full {fuel tableId size : Nat} {b : AppendingBlock I}
    (h : db.m_current.allocMemForTable (Γ.get tableId) size = .ok (.B_FULL, b)) :
    allocMemForRecord Γ (fuel + 1) env db tableId size =
      if ((db.setCurrent b.finish).createNewBlock (env 0)).1 then
        allocMemForRecord Γ fuel (fun k => env (k + 1))
          ((db.setCurrent b.finish).createNewBlock (env 0)).2 tableId size
      else .ok (some (false, ((db.setCurrent b.finish).createNewBlock (env 0)).2)) := by
  rw [allocMemForRecord, h]
  rfl

/-- All that `insert` can do: refuse, store, go on with a new block, or stop the database. -/
theorem insert_cases {fuel : Nat} (h : insert Γ (fuel + 1) env db r = .ok (some (ok, db'))) :
    (db.running = false ∧ ok = false ∧ db' = db) ∨
    db.running = true ∧ ∃ s b,
      db.m_current.append Γ (r.prepare db.m_tnxId db.m_recordId) (env 0).append = .ok (s, b) ∧
      ((s = .B_OK ∧ ok = true ∧ db' = db.attempted b) ∨
       (s = .B_FULL ∧ ∃ redo,
          insert Γ fuel (fun k => env (k + 1)) ((db.attempted b).rotated redo)
            (r.prepare db.m_tnxId db.m_recordId) = .ok (some (ok, db'))) ∨
       (s = .B_FULL ∧ ok = false ∧ ∃ redo,
          db' = { (db.attempted b).unrotated redo with running := false }) ∨
       (s ≠ .B_OK ∧ s ≠ .B_FULL ∧ ok = false ∧
          db' = { db.attempted b with running := false })) := by
  have hturn := h
  unfold insert at h
  split at h
  · rename_i hrunning
    refine Or.inr ⟨hrunning, ?_⟩
    obtain ⟨⟨s, b⟩, happend, h⟩ := Exec.of_bind h
    refine ⟨s, b, happend, ?_⟩
    cases s with
    | B_OK =>
      cases h
      exact Or.inl ⟨rfl, rfl, rfl⟩
    | B_FULL =>
      rw [insert_full hrunning happend] at hturn
      obtain ⟨redo, ⟨-, hnew⟩ | ⟨-, hnew⟩⟩ := (db.attempted b).createNewBlock_cases (env 0)
      · rw [hnew, if_pos rfl] at hturn
        exact Or.inr (Or.inl ⟨rfl, redo, hturn⟩)
      · rw [hnew, if_neg Bool.false_ne_true] at hturn
        cases hturn
        exact Or.inr (Or.inr (Or.inl ⟨rfl, rfl, redo, rfl⟩))
    | B_ILLEGAL =>
      cases h
      exact Or.inr (Or.inr (Or.inr ⟨by decide, by decide, rfl, rfl⟩))
    | B_FAULT =>
      cases h
      exact Or.inr (Or.inr (Or.inr ⟨by decide, by decide, rfl, rfl⟩))
  · rename_i hrunning
    cases h
    exact Or.inl ⟨Bool.eq_false_of_not_eq_true hrunning, rfl, rfl⟩

theorem allocMemForRecord_cases {fuel tableId size : Nat}
    (h : allocMemForRecord Γ (fuel + 1) env db tableId size = .ok (some (ok, db'))) :
    ∃ s b, db.m_current.allocMemForTable (Γ.get tableId) size = .ok (s, b) ∧
      ((s = .B_OK ∧ ok = true ∧ db' = db.setCurrent b) ∨
       (s = .B_FULL ∧ ∃ redo,
          allocMemForRecord Γ fuel (fun k => env (k + 1)) ((db.setCurrent b.finish).rotated redo)
            tableId size = .ok (some (ok, db'))) ∨
       (s = .B_FULL ∧ ok = false ∧ (b.finish.finishAppendingBlock (env 0)).1 = false ∧
          ∃ redo, db' = (db.setCurrent b.finish).unrotated redo)) := by
  have hturn := h
  obtain ⟨⟨s, b⟩, halloc, h⟩ := Exec.of_bind h
  refine ⟨s, b, halloc, ?_⟩
  obtain ⟨b₁, -, hb⟩ := Exec.of_bind halloc
  rcases AppendingBlock.allocMemForRecord_cases hb with ⟨rfl, -, -⟩ | ⟨rfl, -, -⟩
  · rw [allocMemForRecord_full halloc] at hturn
    obtain ⟨redo, ⟨-, hnew⟩ | ⟨hclose, hnew⟩⟩ :=
      (db.setCurrent b.finish).createNewBlock_cases (env 0)
    · rw [hnew, if_pos rfl] at hturn
      exact Or.inr (Or.inl ⟨rfl, redo, hturn⟩)
    · rw [hnew, if_neg Bool.false_ne_true] at hturn
      cases hturn
      exact Or.inr (Or.inr ⟨rfl, rfl, hclose, redo, rfl⟩)
  · cases h
    exact Or.inl ⟨rfl, rfl, rfl⟩

/-! ## Runs -/

/-- A call of the database. -/
inductive Op where
  | insert (r : Record)
  | alloc (tableId size : Nat)

/-- A call, with fuel for its turns. -/
def call (Γ : MetaDataCollection I) (fuel : Nat) (env : Nat → CallIo) (db : Database I) :
    Op → Exec (Option (Bool × Database I))
  | .insert r => insert Γ fuel env db r
  | .alloc tableId size => allocMemForRecord Γ fuel env db tableId size

/-- The call ends, with this result and this database. -/
def Returns (Γ : MetaDataCollection I) (env : Nat → CallIo) (db : Database I) (op : Op)
    (x : Bool × Database I) : Prop :=
  ∃ fuel, call Γ fuel env db op = .ok (some x)

/-- The record a call stores, as `insert` first prepares it. -/
def stored (db : Database I) : Op → Bool → List Record
  | .insert r, true => [r.prepare db.m_tnxId db.m_recordId]
  | _, _ => []

/-- `Run Γ P db₀ db acc`: calls that satisfy `P` and end lead from `db₀` to `db`, and `acc` are the
    records stored on the way. -/
inductive Run (Γ : MetaDataCollection I) (P : Database I → Op → (Nat → CallIo) → Prop)
    (db₀ : Database I) : Database I → List Record → Prop
  | nil : Run Γ P db₀ db₀ []
  | snoc {db db' : Database I} {acc : List Record} {op : Op} {env : Nat → CallIo} {ok : Bool}
      (run : Run Γ P db₀ db acc) (cond : P db op env) (call : Returns Γ env db op (ok, db')) :
      Run Γ P db₀ db' (acc ++ stored db op ok)

/-- The calls of a list in order, each with the same fuel and environment, as long as they pass a
    test. -/
def exec (Γ : MetaDataCollection I) (fuel : Nat) (env : Nat → CallIo)
    (test : Database I → Op → Bool) :
    List Op → Database I × List Record → Exec (Option (Database I × List Record))
  | [], x => .ok (some x)
  | op :: ops, x => do
    match ← call Γ fuel env x.1 op with
    | none => return none
    | some (ok, db) =>
      if test x.1 op then exec Γ fuel env test ops (db, x.2 ++ stored x.1 op ok) else return none

theorem run_of_exec {P : Database I → Op → (Nat → CallIo) → Prop} {db₀ : Database I}
    {fuel : Nat} {env : Nat → CallIo} {test : Database I → Op → Bool} {ops : List Op}
    (hP : ∀ db, ∀ op ∈ ops, test db op = true → P db op env)
    {x y : Database I × List Record} (hx : Run Γ P db₀ x.1 x.2)
    (h : exec Γ fuel env test ops x = .ok (some y)) : Run Γ P db₀ y.1 y.2 := by
  induction ops generalizing x with
  | nil =>
    cases h
    exact hx
  | cons op ops ih =>
    obtain ⟨o, hcall, h⟩ := Exec.of_bind h
    cases o with
    | none => cases h
    | some res =>
      dsimp only at h
      split at h
      case isTrue htest =>
        have hcond := hP _ op (List.mem_cons_self ..) htest
        exact ih (fun db op hop => hP db op (List.mem_cons_of_mem _ hop)) (hx.snoc hcond ⟨fuel, hcall⟩) h
      case isFalse => cases h

/-- Every block of the chain has its layout. -/
structure Sound (Γ : MetaDataCollection I) (db : Database I) : Prop where
  finished : ∀ b ∈ db.finished, AppendingBlock.Layout Γ b
  current : AppendingBlock.Layout Γ db.m_current

private theorem nextBlock_layout (db : Database I) : AppendingBlock.Layout Γ db.nextBlock := by
  have hl := AppendingBlock.layout_create Γ (db.m_current.m_blockID + 1) db.cfg.flag
    db.cfg.m_blockDefaultSize db.cfg.m_redoFlushDataSize db.cfg.m_redoFlushPeriod db.m_recordId
  exact ⟨hl.pageId, hl.table, hl.default, hl.owner, hl.pageCount, hl.tableCount⟩

theorem Sound.rotated (h : Sound Γ db) (redo : RedoState) : Sound Γ (db.rotated redo) where
  finished := by
    intro b hb
    rcases List.mem_append.mp hb with hb | hb
    · exact h.finished b hb
    · rw [List.mem_singleton.mp hb]
      exact h.current.setRedo redo
  current := db.nextBlock_layout

theorem Sound.insert {fuel : Nat} (hdb : Sound Γ db)
    (h : Database.insert Γ fuel env db r = .ok (some (ok, db'))) : Sound Γ db' := by
  induction fuel generalizing env db r with
  | zero => cases h
  | succ fuel ih =>
    rcases insert_cases h with ⟨-, -, rfl⟩ | ⟨-, s, b, happend, hcase⟩
    · exact hdb
    · have hb : AppendingBlock.Layout Γ b :=
        hdb.current.step (show db.m_current.step Γ (.append _ _) = _ from happend)
      have hsound : Sound Γ (db.attempted b) := ⟨hdb.finished, hb⟩
      rcases hcase with ⟨-, -, rfl⟩ | ⟨-, redo, h⟩ | ⟨-, -, redo, rfl⟩ | ⟨-, -, -, rfl⟩
      · exact hsound
      · exact ih (hsound.rotated redo) h
      · exact ⟨hdb.finished, hb.setRedo redo⟩
      · exact ⟨hdb.finished, hb⟩

theorem Sound.alloc {fuel tableId size : Nat} (hdb : Sound Γ db)
    (h : Database.allocMemForRecord Γ fuel env db tableId size = .ok (some (ok, db'))) :
    Sound Γ db' := by
  induction fuel generalizing env db with
  | zero => cases h
  | succ fuel ih =>
    obtain ⟨s, b, halloc, hcase⟩ := allocMemForRecord_cases h
    have hb : AppendingBlock.Layout Γ b :=
      hdb.current.step (show db.m_current.step Γ (.alloc _ _) = _ from halloc)
    have hfinish : AppendingBlock.Layout Γ b.finish :=
      ⟨hb.pageId, hb.table, hb.default, hb.owner, hb.pageCount, hb.tableCount⟩
    rcases hcase with ⟨-, -, rfl⟩ | ⟨-, redo, h⟩ | ⟨-, -, -, redo, rfl⟩
    · exact ⟨hdb.finished, hb⟩
    · have hsound : Sound Γ (db.setCurrent b.finish) := ⟨hdb.finished, hfinish⟩
      exact ih (hsound.rotated redo) h
    · exact ⟨hdb.finished, hfinish.setRedo redo⟩

theorem Run.sound {P : Database I → Op → (Nat → CallIo) → Prop} {db₀ : Database I}
    {acc : List Record} (h₀ : Sound Γ db₀) (h : Run Γ P db₀ db acc) : Sound Γ db := by
  induction h with
  | nil => exact h₀
  | @snoc _ _ _ op _ _ _ _ call ih =>
    cases op with
    | insert r =>
      obtain ⟨fuel, hcall⟩ := call
      exact ih.insert hcall
    | alloc tableId size =>
      obtain ⟨fuel, hcall⟩ := call
      exact ih.alloc hcall

theorem sound_start (Γ : MetaDataCollection I) (cfg : Config) (blockId recordId : Nat) :
    Sound Γ (start cfg blockId recordId : Database I) where
  finished := fun _ hb => nomatch hb
  current := AppendingBlock.layout_create Γ _ _ _ _ _ _

/-- The settings of an empty configuration file, with another block size. -/
def sampleConfig (size : Nat) (hlo : 32 * 1024 ≤ size) (hhi : size ≤ 1024 * 1024 * 1024) :
    Config where
  m_blockDefaultSize := size
  m_redo := false
  m_compress := true
  m_redoFlushDataSize := -1
  m_redoFlushPeriod := -1
  size_ge := hlo
  size_le := hhi

def oneMbConfig : Config := sampleConfig (1024 * 1024) (by omega) (by omega)

def smallestConfig : Config := sampleConfig (32 * 1024) (by omega) (by omega)

/-- System calls that succeed, and a flush queue that takes every block. -/
def quietEnv (_ : Nat) : CallIo := { append := quietIo, finish := quietIo, pushed := true }

end Database

end DBStream.Native
