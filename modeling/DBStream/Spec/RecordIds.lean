import DBStream.Spec.DatabaseRuns
import DBStream.Spec.Refusal

/-!
# Record ids across blocks

`Tiled` says that the blocks of the chain hold the stored records one block after the
other, under consecutive ids.  `Ledger` adds what `insert` and the rotation read: the id
counter stands behind the last record.  A call of `insert` keeps the ledger when the current
block takes the record; a rotation keeps it when `allocMemForRecord` makes it, but not when
`insert` does, since `insert` has drawn an id by then (`insert_skips_id`).
-/

namespace DBStream.Native

open AppendingBlock (Contents Placed accepted)

variable {I : IndexImpl} {Γ : MetaDataCollection I}

/-- The records of a block, wherever they lie. -/
def Holds (Γ : MetaDataCollection I) (b : AppendingBlock I) (part : List Record) : Prop :=
  Contents Γ (fun _ _ => True) b part ∧ b.m_recordCount ≤ maxRecordInBlock

variable {part : List Record}

variable {b : AppendingBlock I}

theorem Holds.count (h : Holds Γ b part) :
    b.m_recordCount = part.length := h.1.count

theorem Holds.setRedo (h : Holds Γ b part)
    (redo : RedoState) : Holds Γ (b.setRedo redo) part := by
  have hext : AppendingBlock.Extends b (b.setRedo redo) :=
    .of_same rfl rfl rfl fun _ t ht => ⟨t, ht, fun _ hs => hs⟩
  exact ⟨h.1.extends hext rfl h.1.recordIds, h.2⟩

theorem Holds.finish (h : Holds Γ b part) :
    Holds Γ b.finish part := by
  have hext : AppendingBlock.Extends b b.finish :=
    .of_same rfl rfl rfl fun _ t ht => ⟨t, ht, fun _ hs => hs⟩
  exact ⟨h.1.extends hext rfl h.1.recordIds, h.2⟩

/-- The blocks hold the records of the list one block after the other, under the ids from `n`
    on. -/
inductive Tiled (Γ : MetaDataCollection I) : Nat → List (AppendingBlock I) → List Record → Prop
  | nil (n : Nat) : Tiled Γ n [] []
  | cons {n : Nat} {b : AppendingBlock I} {bs : List (AppendingBlock I)}
      {part acc : List Record} (hmin : b.m_minRecordId = n) (holds : Holds Γ b part)
      (rest : Tiled Γ (n + part.length) bs acc) : Tiled Γ n (b :: bs) (part ++ acc)

namespace Tiled

variable {n : Nat} {bs : List (AppendingBlock I)} {acc : List Record}

theorem snoc (h : Tiled Γ n bs acc)
    (hmin : b.m_minRecordId = n + acc.length) (hb : Holds Γ b part) :
    Tiled Γ n (bs ++ [b]) (acc ++ part) := by
  induction h with
  | nil n =>
    have hnil : Tiled Γ (n + part.length) [] [] := .nil _
    have htile := Tiled.cons (by simpa using hmin) hb hnil
    rw [List.append_nil] at htile
    exact htile
  | @cons n a bs part' acc hmin' hold rest ih =>
    rw [List.append_assoc]
    apply Tiled.cons hmin' hold
    apply ih
    rw [hmin, List.length_append]
    omega

theorem bounds (h : Tiled Γ n bs acc) {j : Nat} (hb : bs[j]? = some b) :
    n ≤ b.m_minRecordId ∧ b.m_minRecordId + b.m_recordCount ≤ n + acc.length ∧
      b.m_recordCount ≤ maxRecordInBlock := by
  induction h generalizing j with
  | nil n => simp at hb
  | @cons n a bs part acc hmin hold rest ih =>
    have hcount := hold.count
    rw [List.length_append]
    cases j with
    | zero =>
      simp only [List.getElem?_cons_zero, Option.some.injEq] at hb
      subst hb
      exact ⟨by omega, by omega, hold.2⟩
    | succ j =>
      obtain ⟨hlo, hhi, hmax⟩ := ih hb
      exact ⟨by omega, by omega, hmax⟩

theorem lt (h : Tiled Γ n bs acc) {j k : Nat} {a b : AppendingBlock I} (ha : bs[j]? = some a)
    (hb : bs[k]? = some b) (hjk : j < k) :
    a.m_minRecordId + a.m_recordCount ≤ b.m_minRecordId := by
  induction h generalizing j k with
  | nil n => simp at ha
  | @cons n c bs part acc hmin hold rest ih =>
    obtain ⟨k, rfl⟩ : ∃ k', k = k' + 1 := ⟨k - 1, by omega⟩
    cases j with
    | zero =>
      simp only [List.getElem?_cons_zero, Option.some.injEq] at ha
      subst ha
      have hcount := hold.count
      have hlo := (rest.bounds hb).1
      omega
    | succ j =>
      exact ih ha hb (by omega)

theorem consecutive (h : Tiled Γ n bs acc) {j : Nat} {a b : AppendingBlock I}
    (ha : bs[j]? = some a) (hb : bs[j + 1]? = some b) :
    b.m_minRecordId = a.m_minRecordId + a.m_recordCount := by
  induction h generalizing j with
  | nil n => simp at ha
  | @cons n c bs part acc hmin hold rest ih =>
    rw [List.getElem?_cons_succ] at hb
    cases j with
    | zero =>
      simp only [List.getElem?_cons_zero, Option.some.injEq] at ha
      subst ha
      have hcount := hold.count
      cases rest with
      | nil => simp at hb
      | cons hmin' _ _ =>
        simp only [List.getElem?_cons_zero, Option.some.injEq] at hb
        subst hb
        omega
    | succ j =>
      exact ih ha hb

theorem locate (h : Tiled Γ n bs acc) {i : Nat} {r : Record} (hr : acc[i]? = some r) :
    ∃ (j : Nat) (b : AppendingBlock I) (k slot offset : Nat), bs[j]? = some b ∧
      b.m_minRecordId + k = n + i ∧ k < b.m_recordCount ∧ Placed b k r slot offset := by
  induction h generalizing i with
  | nil n => simp at hr
  | @cons n c bs part acc hmin hold rest ih =>
    have hcount := hold.count
    by_cases hi : i < part.length
    · rw [List.getElem?_append_left hi] at hr
      obtain ⟨slot, offset, t, -, hplaced, -⟩ := hold.1.placed i r hr
      exact ⟨0, c, i, slot, offset, rfl, by omega, by omega, hplaced⟩
    · rw [List.getElem?_append_right (by omega)] at hr
      obtain ⟨j, b, k, slot, offset, hb, hid, hk, hplaced⟩ := ih hr
      exact ⟨j + 1, b, k, slot, offset, by simpa using hb, by omega, hk, hplaced⟩

end Tiled

namespace Database

variable {db db' : Database I} {start : Nat} {acc : List Record}

/-- What the id counter and the chain say about the stored records. -/
structure Ledger (Γ : MetaDataCollection I) (start : Nat) (db : Database I) (acc : List Record) :
    Prop where
  sound : Sound Γ db
  tiled : ∃ old part, acc = old ++ part ∧ Tiled Γ start db.finished old ∧
    db.m_current.m_minRecordId = start + old.length ∧ Holds Γ db.m_current part
  next : db.m_recordId = db.m_current.m_minRecordId + db.m_current.m_recordCount
  ids : ∀ j b, db.chain[j]? = some b → b.m_blockID = db.m_firstBlockId + j
  firstId : 1 ≤ db.m_firstBlockId
  dangling : db.dangling = false
  word : db.m_recordId < 2 ^ 64
  used : ∀ b ∈ db.finished, 0 < b.m_minRecordId + b.m_recordCount

theorem Ledger.chain (h : Ledger Γ start db acc) : Tiled Γ start db.chain acc := by
  obtain ⟨old, part, rfl, htiled, hmin, hold⟩ := h.tiled
  exact htiled.snoc hmin hold

theorem Ledger.next_eq (h : Ledger Γ start db acc) : db.m_recordId = start + acc.length := by
  obtain ⟨old, part, rfl, htiled, hmin, hold⟩ := h.tiled
  have hcount := hold.count
  rw [h.next, hmin, hcount, List.length_append]
  omega

theorem chain_ids (db : Database I)
    (hid : b.m_blockID = db.m_current.m_blockID)
    (h : ∀ j a, db.chain[j]? = some a → a.m_blockID = db.m_firstBlockId + j) :
    ∀ j a, (db.finished ++ [b])[j]? = some a → a.m_blockID = db.m_firstBlockId + j := by
  intro j a ha
  by_cases hj : j < db.finished.length
  · rw [List.getElem?_append_left hj] at ha
    apply h j a
    rw [Database.chain, List.getElem?_append_left hj, ha]
  · have hcur := h db.finished.length db.m_current (by simp [Database.chain])
    rw [List.getElem?_append_right (by omega)] at ha
    obtain ⟨hlt, ha⟩ := List.getElem?_eq_some_iff.mp ha
    simp only [List.length_singleton] at hlt
    simp only [List.getElem_singleton] at ha
    subst ha
    have hj' : j = db.finished.length := by omega
    rw [hid, hcur, hj']

theorem Ledger.step (h : Ledger Γ start db acc) {op : AppendingBlock.Op}
    {s : AppendingBlockStaus}
    (hcall : db.m_current.step Γ op = .ok (s, b))
    (hword : db.m_recordId + (accepted op s).length < 2 ^ 64) :
    Ledger Γ start
      { db with m_recordId := db.m_recordId + (accepted op s).length, m_current := b }
      (acc ++ accepted op s) := by
  obtain ⟨hid, hmin'⟩ := AppendingBlock.step_ids hcall
  obtain ⟨old, part, rfl, htiled, hmin, hold⟩ := h.tiled
  have hlands : AppendingBlock.LandsIn Γ (fun _ _ => True) db.m_current op := by
    cases op with
    | alloc _ _ => trivial
    | append _ _ => trivial
  have hcontents := hold.1.step h.sound.current (fun _ => hlands) hcall
  have hcount := hcontents.count
  have hbounded := AppendingBlock.recordCount_le_step hold.2 hcall
  refine ⟨⟨h.sound.finished, h.sound.current.step hcall⟩, ?_, ?_, chain_ids db hid h.ids,
    h.firstId, h.dangling, hword, h.used⟩
  · refine ⟨old, part ++ accepted op s, by rw [List.append_assoc], htiled, ?_, hcontents, hbounded⟩
    rw [hmin', hmin]
  · show db.m_recordId + _ = b.m_minRecordId + b.m_recordCount
    rw [h.next, hmin', hcount, hold.count, List.length_append]
    omega

theorem Ledger.finish (h : Ledger Γ start db acc) :
    Ledger Γ start (db.setCurrent db.m_current.finish) acc := by
  obtain ⟨old, part, rfl, htiled, hmin, hold⟩ := h.tiled
  have hl := h.sound.current
  exact ⟨⟨h.sound.finished, hl.pageId, hl.table, hl.default, hl.owner, hl.pageCount,
    hl.tableCount⟩, ⟨old, part, rfl, htiled, hmin, hold.finish⟩, h.next, chain_ids db rfl h.ids,
    h.firstId, h.dangling, h.word, h.used⟩

private theorem nextBlock_holds (db : Database I) : Holds Γ db.nextBlock [] := by
  have hcontents := AppendingBlock.contents_create Γ (fun _ _ => True)
    (db.m_current.m_blockID + 1) db.cfg.flag db.cfg.m_blockDefaultSize
    db.cfg.m_redoFlushDataSize db.cfg.m_redoFlushPeriod db.m_recordId
  have hext : AppendingBlock.Extends
      (db.cfg.newBlock (db.m_current.m_blockID + 1) db.m_recordId) db.nextBlock :=
    .of_same rfl rfl rfl fun _ t ht => ⟨t, ht, fun _ hs => hs⟩
  exact ⟨hcontents.extends hext rfl hcontents.recordIds, Nat.zero_le _⟩

theorem Ledger.rotated (h : Ledger Γ start db acc) (hused : 0 < db.m_recordId) (redo : RedoState) :
    Ledger Γ start (db.rotated redo) acc := by
  obtain ⟨old, part, rfl, htiled, hmin, hold⟩ := h.tiled
  have hids := chain_ids db (b := db.m_current.setRedo redo) rfl h.ids
  refine ⟨h.sound.rotated redo, ⟨old ++ part, [], by rw [List.append_nil], ?_, ?_, ?_⟩, ?_, ?_, h.firstId,
    rfl, h.word, fun b hb => ?_⟩
  · exact htiled.snoc hmin (hold.setRedo redo)
  · show db.m_recordId = _
    rw [h.next_eq]
  · exact db.nextBlock_holds
  · rfl
  · intro j b hb
    by_cases hj : j < (db.finished ++ [db.m_current.setRedo redo]).length
    · apply hids j b
      rw [← hb]
      exact (List.getElem?_append_left hj).symm
    · have hcur := h.ids db.finished.length db.m_current (by simp [Database.chain])
      have hb' : [db.nextBlock][j - (db.finished ++ [db.m_current.setRedo redo]).length]? =
          some b := by
        rw [← hb]
        exact (List.getElem?_append_right (by omega)).symm
      obtain ⟨hlt, hb'⟩ := List.getElem?_eq_some_iff.mp hb'
      simp only [List.length_singleton, List.length_append] at hlt hj
      simp only [List.getElem_singleton] at hb'
      subst hb'
      show db.m_current.m_blockID + 1 = db.m_firstBlockId + j
      omega
  · obtain hb | hb := List.mem_append.mp hb
    · exact h.used b hb
    · obtain rfl := List.mem_singleton.mp hb
      rw [h.next] at hused
      exact hused

/-! ## Calls that keep the ids dense -/

/-- The step condition.  An `insert` on a running database finds a legal record, room in the
    current block and a redo file that takes the record, so that the id it draws is used.  An
    `allocMemForRecord` that finds the current block full can close it, a fresh block is not full,
    and the block that is closed is not an empty one at id 0, whose `lastRecordId` wraps around. -/
def Regular (Γ : MetaDataCollection I) (db : Database I) : Op → (Nat → CallIo) → Prop
  | .insert r, env => db.running = false ∨
      (db.m_current.m_maxLogOffset ≤ RecordHead.logOffset r.data ∧
        ¬ AppendingBlock.Refuses Γ db.m_current r ∧
        (db.m_current.writeRedo (r.prepare db.m_tnxId db.m_recordId) (env 0).append).1 = .B_OK ∧
        db.m_recordId + 1 < 2 ^ 64)
  | .alloc tableId size, env => db.m_current.Full (Γ.get tableId) size →
      (db.m_current.finishAppendingBlock (env 0)).1 = true ∧
        ¬ (db.cfg.newBlock 0 0 : AppendingBlock I).Full (Γ.get tableId) size ∧
        0 < db.m_recordId

private theorem append_status {b b' : AppendingBlock I} {r : Record} {io : RedoIo}
    {s : AppendingBlockStaus} (hl : AppendingBlock.Layout Γ b)
    (hlog : b.m_maxLogOffset ≤ RecordHead.logOffset r.data)
    (hroom : ¬ AppendingBlock.Refuses Γ b r) (hredo : (b.writeRedo r io).1 = .B_OK)
    (h : b.append Γ r io = .ok (s, b')) : s = .B_OK := by
  rcases AppendingBlock.append_cases h with ⟨-, -, hbad⟩ | ⟨-, b₁, hb₁, hcase⟩
  · omega
  · rcases hcase with ⟨rfl, -⟩ | ⟨b₂, t, slot, p, redo, hopened, -, hwrite, -⟩
    · exact absurd ((AppendingBlock.append_full_iff hl r io).mp ⟨b', h⟩) hroom
    · rw [AppendingBlock.writeRedo_place hb₁ hopened] at hwrite
      rw [hwrite] at hredo
      exact hredo

theorem Ledger.insert (h : Ledger Γ start db acc) {r : Record} {env : Nat → CallIo} {ok : Bool}
    (hcond : Regular Γ db (.insert r) env) (hcall : Returns Γ env db (.insert r) (ok, db')) :
    Ledger Γ start db' (acc ++ stored db (.insert r) ok) := by
  obtain ⟨fuel, hcall⟩ := hcall
  cases fuel with
  | zero => cases hcall
  | succ fuel =>
    rcases insert_cases hcall with ⟨-, rfl, rfl⟩ | ⟨hrunning, s, b, happend, hcase⟩
    · rw [show stored db' (.insert r) false = [] from rfl, List.append_nil]
      exact h
    · rcases hcond with hstopped | ⟨hlog, hroom, hredo, hword⟩
      · rw [hstopped] at hrunning
        cases hrunning
      · have hs : s = .B_OK := by
          apply append_status h.sound.current _ _ hredo happend
          · rw [r.logOffset_prepare]
            exact hlog
          · rw [AppendingBlock.refuses_prepare]
            exact hroom
        subst hs
        rcases hcase with ⟨-, rfl, rfl⟩ | ⟨hs, -⟩ | ⟨hs, -⟩ | ⟨hs, -⟩
        · exact h.step (show db.m_current.step Γ (.append _ _) = _ from happend) hword
        · cases hs
        · cases hs
        · exact absurd rfl hs

private theorem closes_of_full {b b' : AppendingBlock I} {m : Option (TableMeta I)} {size : Nat}
    {io : CallIo} (h : b.allocMemForTable m size = .ok (.B_FULL, b')) :
    (b'.finish.finishAppendingBlock io).1 = (b.finishAppendingBlock io).1 := by
  obtain ⟨b₁, hb₁, halloc⟩ := Exec.of_bind h
  rcases AppendingBlock.allocMemForRecord_cases halloc with ⟨-, rfl, -⟩ | ⟨hs, -⟩
  · rcases AppendingBlock.getTableData_cases hb₁ with ⟨rfl, -⟩ | ⟨m', t, -, -, -, rfl⟩
    · exact AppendingBlock.finishAppendingBlock_congr io rfl rfl rfl rfl
    · exact AppendingBlock.finishAppendingBlock_congr io rfl rfl rfl rfl
  · cases hs

/-- An allocation gives no id, but may end the block. -/
theorem Ledger.alloc (h : Ledger Γ start db acc) {tableId size : Nat} {env : Nat → CallIo}
    {ok : Bool} (hcond : Regular Γ db (.alloc tableId size) env)
    (hcall : Returns Γ env db (.alloc tableId size) (ok, db')) :
    Ledger Γ start db' (acc ++ stored db (.alloc tableId size) ok) := by
  have hnil : stored db (.alloc tableId size) ok = [] := by
    cases ok <;> rfl
  rw [hnil, List.append_nil]
  obtain ⟨fuel, hcall⟩ := hcall
  cases fuel with
  | zero => cases hcall
  | succ fuel =>
    obtain ⟨s, b, halloc, hcase⟩ := allocMemForRecord_cases hcall
    have hstep : Ledger Γ start (db.setCurrent b) acc := by
      have := h.step (show db.m_current.step Γ (.alloc _ _) = _ from halloc) h.word
      rw [show accepted (.alloc tableId size) s = [] from rfl, List.append_nil] at this
      exact this
    rcases hcase with ⟨-, -, rfl⟩ | ⟨rfl, redo, hnext⟩ | ⟨rfl, -, hfail, redo, rfl⟩
    · exact hstep
    · -- the block was rotated: the next turn finds memory in the fresh block
      obtain ⟨-, hfresh, hused⟩ := hcond (AppendingBlock.allocMemForTable_full h.sound.current halloc)
      have hrotated := hstep.finish.rotated hused redo
      cases fuel with
      | zero => cases hnext
      | succ fuel =>
        obtain ⟨s', b', halloc', hcase'⟩ := allocMemForRecord_cases hnext
        have hnot : s' ≠ .B_FULL := by
          rintro rfl
          exact hfresh (AppendingBlock.allocMemForTable_full hrotated.sound.current halloc')
        rcases hcase' with ⟨-, -, rfl⟩ | ⟨hs, -⟩ | ⟨hs, -⟩
        · have := hrotated.step (show AppendingBlock.step Γ _ (.alloc _ _) = _ from halloc')
            hrotated.word
          rw [show accepted (.alloc tableId size) s' = [] from rfl, List.append_nil] at this
          exact this
        · exact absurd hs hnot
        · exact absurd hs hnot
    · -- the block could not be closed
      obtain ⟨hclose, -⟩ := hcond (AppendingBlock.allocMemForTable_full h.sound.current halloc)
      rw [closes_of_full halloc, hclose] at hfail
      cases hfail

theorem Run.ledger {db₀ : Database I} (h₀ : Ledger Γ start db₀ [])
    (h : Run Γ (Regular Γ) db₀ db acc) : Ledger Γ start db acc := by
  induction h with
  | nil => exact h₀
  | @snoc _ _ _ op _ _ _ cond call ih =>
    cases op with
    | insert r => exact ih.insert cond call
    | alloc tableId size => exact ih.alloc cond call

theorem ledger_start (Γ : MetaDataCollection I) (cfg : Config) (blockId recordId : Nat)
    (hblock : 1 ≤ blockId) (hword : recordId < 2 ^ 64) :
    Ledger Γ recordId (Database.start cfg blockId recordId : Database I) [] where
  sound := sound_start Γ cfg blockId recordId
  tiled := ⟨[], [], rfl, .nil _, rfl, AppendingBlock.contents_create Γ _ _ _ _ _ _ _,
    Nat.zero_le _⟩
  next := rfl
  ids := by
    intro j b hb
    cases j with
    | zero =>
      cases hb
      rfl
    | succ j => cases hb
  firstId := hblock
  dangling := rfl
  word := hword
  used := fun _ hb => nomatch hb

/-! ## Seeking -/

theorem Ledger.lastRecordId (h : Ledger Γ start db acc) {j : Nat} (hb : db.chain[j]? = some b)
    (hpos : 0 < b.m_minRecordId + b.m_recordCount) :
    b.lastRecordId = b.m_minRecordId + b.m_recordCount - 1 := by
  obtain ⟨hlo, hhi, -⟩ := h.chain.bounds hb
  have hnext := h.next_eq
  have hword := h.word
  unfold AppendingBlock.lastRecordId
  omega

/-- Of the blocks from one with a record on, and of those before it, none is an empty one at id 0. -/
theorem Ledger.pos_of_chain (h : Ledger Γ start db acc) {j k : Nat} {c : AppendingBlock I}
    (hb : db.chain[j]? = some b) (hcount : 0 < b.m_recordCount) (hc : db.chain[k]? = some c) :
    0 < c.m_minRecordId + c.m_recordCount := by
  obtain hkj | rfl | hjk := Nat.lt_trichotomy k j
  · have hlt := (List.getElem?_eq_some_iff.mp hb).1
    simp only [Database.chain, List.length_append, List.length_singleton] at hlt
    rw [Database.chain, List.getElem?_append_left (by omega)] at hc
    exact h.used c (List.mem_of_getElem? hc)
  · rw [hb] at hc
    obtain rfl := Option.some.inj hc
    omega
  · have hlt := h.chain.lt hb hc hjk
    omega

theorem Ledger.getBasciBlock (h : Ledger Γ start db acc) {j : Nat} (hb : db.chain[j]? = some b) :
    db.getBasciBlock (db.m_firstBlockId + j) = .ok (some b) := by
  have hlt := (List.getElem?_eq_some_iff.mp hb).1
  have hlast : db.m_lastBlockId = db.m_firstBlockId + db.finished.length := by
    simp [m_lastBlockId, h.dangling]
  simp only [Database.chain, List.length_append, List.length_singleton] at hlt
  have hfirst := h.firstId
  unfold Database.getBasciBlock
  rw [if_neg (by omega), Nat.add_sub_cancel_left, hb]

theorem findBlock_turn {id fuel : Nat} {s e : Int} (hse : s ≤ e)
    (hb : db.getBasciBlock ((s + e) / 2).toNat = .ok (some b)) :
    db.findBlock id (fuel + 1) s e =
      if b.lastRecordId < id then db.findBlock id fuel ((s + e) / 2 + 1) e
      else if id < b.m_minRecordId then db.findBlock id fuel s ((s + e) / 2 - 1)
      else .ok (some b) := by
  rw [findBlock, if_pos hse]
  simp only [hb, Exec.ok_bind, Exec.pure_eq]

/-- The search for an id ends in the block that has it. -/
theorem Ledger.findBlock (h : Ledger Γ start db acc) (id : Nat) {j : Nat}
    (hb : db.chain[j]? = some b)
    (hlo : b.m_minRecordId ≤ id) (hhi : id < b.m_minRecordId + b.m_recordCount) (fuel : Nat)
    (s e : Int) (hs : db.m_firstBlockId ≤ s) (hsj : s ≤ db.m_firstBlockId + j)
    (hje : db.m_firstBlockId + j ≤ e) (he : e ≤ db.m_firstBlockId + db.finished.length)
    (hfuel : e + 1 - s ≤ fuel) : db.findBlock id fuel s e = .ok (some b) := by
  -- induction on the fuel: each turn makes the range of block ids smaller
  induction fuel generalizing s e with
  | zero => omega
  | succ fuel ih =>
    -- the block in the middle of the range
    obtain ⟨k, hk⟩ : ∃ k : Nat, (s + e) / 2 = (db.m_firstBlockId + k : Nat) :=
      ⟨((s + e) / 2 - db.m_firstBlockId).toNat, by omega⟩
    have hklt : k < db.chain.length := by
      simp only [Database.chain, List.length_append, List.length_singleton]
      omega
    have hc : db.chain[k]? = some db.chain[k] := List.getElem?_eq_getElem hklt
    have hpos := h.pos_of_chain hb (by omega) hc
    have hlast := h.lastRecordId hc hpos
    have hbounds := h.chain.bounds hc
    have hget := h.getBasciBlock hc
    rw [← Int.toNat_natCast (db.m_firstBlockId + k), ← hk] at hget
    rw [findBlock_turn (by omega) hget, hlast]
    by_cases hkj : k < j
    · -- it lies before the block
      have hlt := h.chain.lt hc hb hkj
      rw [if_pos (by omega)]
      apply ih <;> omega
    · by_cases hjk : j < k
      · -- it lies behind the block
        have hlt := h.chain.lt hb hc hjk
        rw [if_neg (by omega), if_pos (by omega)]
        apply ih <;> omega
      · -- it is the block
        have hkj' : k = j := by omega
        subst hkj'
        rw [hb] at hc
        have hbk := Option.some.inj hc
        rw [← hbk, if_neg (by omega), if_neg (by omega)]

theorem Ledger.seek (h : Ledger Γ start db acc) {flag id : Nat}
    (hflag : flag &&& ITER_FLAG_DESC = 0) (hlo : start ≤ id)
    (hhi : id < start + acc.length) :
    ∃ p, db.seek flag id = .ok (some p) ∧ p.m_realRecordId = id := by
  obtain ⟨r, hr⟩ : ∃ r, acc[id - start]? = some r :=
    ⟨_, List.getElem?_eq_getElem (show id - start < acc.length by omega)⟩
  obtain ⟨j, b, k, slot, offset, hb, hid, hk, -⟩ := h.chain.locate hr
  have hbounds := h.chain.bounds hb
  have hlt := (List.getElem?_eq_some_iff.mp hb).1
  simp only [Database.chain, List.length_append, List.length_singleton] at hlt
  have hlast : db.m_lastBlockId = db.m_firstBlockId + db.finished.length := by
    simp [m_lastBlockId, h.dangling]
  have hfound := h.findBlock id hb (by omega) (by omega)
    (db.m_lastBlockId + 1 - db.m_firstBlockId) db.m_firstBlockId db.m_lastBlockId (by omega)
    (by omega) (by omega) (by omega) (by omega)
  unfold Database.seek
  rw [hfound]
  show ∃ p, b.seekRecordId flag id = .ok (some p) ∧ _
  refine ⟨⟨b.m_blockID, k, id⟩, ?_, rfl⟩
  have hmax : maxRecordInBlock < 2 ^ 32 := by decide
  have hseeked : ((id - b.m_minRecordId + (2 ^ 32 - 1)) % 2 ^ 32 + 1) % 2 ^ 32 = k := by omega
  unfold AppendingBlock.seekRecordId
  rw [if_neg (by omega)]
  rw [if_pos hflag, hseeked, if_neg (by omega)]
  have hid' : b.m_minRecordId + k = id := by omega
  rw [hid']

/-- The ids of the stored records are consecutive from `start` on: the first block starts there,
    each block continues the one before it, the n-th record stored has the n-th id, and seeking
    finds every id. -/
structure DenseIds (start : Nat) (db : Database I) (acc : List Record) : Prop where
  first : ∀ b, db.chain[0]? = some b → b.m_minRecordId = start
  consecutive : ∀ j a b, db.chain[j]? = some a → db.chain[j + 1]? = some b →
    b.m_minRecordId = a.m_minRecordId + a.m_recordCount
  last : db.m_current.m_minRecordId + db.m_current.m_recordCount = start + acc.length
  stored : ∀ n r, acc[n]? = some r → ∃ b ∈ db.chain, ∃ k slot offset, k < b.m_recordCount ∧
    b.m_minRecordId + k = start + n ∧ Placed b k r slot offset ∧
    RecordHead.recordId (r.stamped (b.m_minRecordId + k)) = start + n
  seek : ∀ flag id, flag &&& ITER_FLAG_DESC = 0 → start ≤ id → id < start + acc.length →
    ∃ p, db.seek flag id = .ok (some p) ∧ p.m_realRecordId = id

theorem Ledger.denseIds (h : Ledger Γ start db acc) : DenseIds start db acc where
  first := by
    intro b hb
    have htiled := h.chain
    cases hchain : db.chain with
    | nil =>
      rw [hchain] at hb
      cases hb
    | cons c cs =>
      rw [hchain] at hb htiled
      cases hb
      cases htiled with
      | cons hmin _ _ => exact hmin
  consecutive := fun j a b => h.chain.consecutive
  last := by
    rw [← h.next, h.next_eq]
  stored := by
    intro n r hr
    obtain ⟨j, b, k, slot, offset, hb, hid, hk, hplaced⟩ := h.chain.locate hr
    have hnext := h.next_eq
    have hword := h.word
    have hn := (List.getElem?_eq_some_iff.mp hr).1
    refine ⟨b, List.mem_of_getElem? hb, k, slot, offset, hk, hid, hplaced, ?_⟩
    rw [Record.recordId_stamped, hid]
    omega
  seek := fun flag id hflag hlo hhi => h.seek hflag hlo hhi

/-- In every run of regular calls, from a database that starts with the ids `load` gives an empty
    directory (the first record id is 0 where it makes the directory), the record ids are dense
    across the blocks. -/
theorem recordIds_dense (Γ : MetaDataCollection I) (cfg : Config) (blockId recordId : Nat)
    (hblock : 1 ≤ blockId) (hword : recordId < 2 ^ 64)
    (db : Database I) (acc : List Record)
    (hrun : Run Γ (Regular Γ) (Database.start cfg blockId recordId) db acc) :
    DenseIds recordId db acc :=
  (hrun.ledger (ledger_start Γ cfg blockId recordId hblock hword)).denseIds

/-- A row of a table with one column. -/
def shortRow (tableId : Nat) : Record := rowRecord tableId [1, 0, 0, 0] length_fourBytes_lt

/-- A test for the condition. -/
def isRegular (Γ : MetaDataCollection I) (env : Nat → CallIo) (db : Database I) : Op → Bool
  | .insert r =>
    db.m_current.m_maxLogOffset ≤ RecordHead.logOffset r.data ∧
      ¬ db.m_current.Full (Γ.metaOf r.data) r.data.length ∧
      (db.m_current.writeRedo (r.prepare db.m_tnxId db.m_recordId) (env 0).append).1 = .B_OK ∧
      db.m_recordId + 1 < 2 ^ 64
  | .alloc tableId size =>
    (db.m_current.finishAppendingBlock (env 0)).1 = true ∧
      ¬ (db.cfg.newBlock 0 0 : AppendingBlock I).Full (Γ.get tableId) size ∧ 0 < db.m_recordId

theorem regular_of_isRegular {env : Nat → CallIo} {op : Op} (h : isRegular Γ env db op = true) :
    Regular Γ db op env := by
  cases op with
  | insert r =>
    obtain ⟨hlog, hroom, hredo, hword⟩ := of_decide_eq_true h
    exact .inr ⟨hlog, fun href => hroom href.full, hredo, hword⟩
  | alloc tableId size => exact fun _ => of_decide_eq_true h

/-- A row of a first table, memory for one of a second table, for which the block is closed, and
    that row: from id 0 on, the second block goes on where the first one ends. -/
theorem recordIds_dense_rotated : ∃ (db : Database noIndex) (acc : List Record),
    db.chain.map (fun b => (b.m_minRecordId, b.m_recordCount)) = [(0, 1), (1, 1)] ∧
    DenseIds 0 db acc := by
  have hexec : (exec twoTables 2 quietEnv (isRegular twoTables quietEnv)
      [.insert (shortRow 65536), .alloc 131072 50, .insert (shortRow 131072)]
      (Database.start oneMbConfig 1 0, []) >>= fun o => .ok (o.map fun x =>
        x.1.chain.map (fun b => (b.m_minRecordId, b.m_recordCount)))) =
      .ok (some [(0, 1), (1, 1)]) := by
    rfl
  obtain ⟨o, hrun, ho⟩ := Exec.of_bind hexec
  obtain ⟨⟨db, acc⟩, rfl, hchain⟩ := Option.map_eq_some_iff.mp (Except.ok.inj ho)
  exact ⟨db, acc, hchain, recordIds_dense twoTables oneMbConfig 1 0 (by omega) (by omega) db acc
    (run_of_exec (fun _ _ _ => regular_of_isRegular) .nil hrun)⟩

/-- The first row of a second table does not fit into a block of 1 MB.  `insert` draws id `2`, finds
    the block full, starts the new block at id `3` and stores the row there: id `2` is lost. -/
theorem insert_skips_id : ∃ (db : Database noIndex) (acc : List Record),
    Run twoTables (fun _ _ _ => True) (Database.start oneMbConfig 1 1) db acc ∧ acc.length = 2 ∧
    db.chain.map (fun b => (b.m_minRecordId, b.m_recordCount)) = [(1, 1), (3, 1)] ∧
    db.seek 0 2 = .ok none := by
  have hexec : (exec twoTables 2 quietEnv (fun _ _ => true) [.insert (shortRow 65536), .insert (shortRow 131072)]
      (Database.start oneMbConfig 1 1, []) >>= fun o => .ok (o.map fun x =>
        (x.2.length, x.1.chain.map (fun b => (b.m_minRecordId, b.m_recordCount)),
          x.1.seek 0 2))) = .ok (some (2, [(1, 1), (3, 1)], .ok none)) := by
    rfl
  obtain ⟨o, hrun, ho⟩ := Exec.of_bind hexec
  obtain ⟨⟨db, acc⟩, rfl, hfacts⟩ := Option.map_eq_some_iff.mp (Except.ok.inj ho)
  simp only [Prod.mk.injEq] at hfacts
  exact ⟨db, acc, run_of_exec (fun _ _ _ _ => trivial) .nil hrun, hfacts⟩

end Database

end DBStream.Native
