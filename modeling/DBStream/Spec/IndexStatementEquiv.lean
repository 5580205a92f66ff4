import DBStream.Native.IndexStatements
import DBStream.Spec.AlterFailure
import DBStream.Spec.IndexAdding

/-!
# Statements on indexes, and `ALTER TABLE`

`CREATE INDEX` and `DROP INDEX` work on a `tableMeta` without columns and keys, so they always fail and
change nothing (`process_eq`).  The `ALTER TABLE` that corresponds does the same exactly where it is
refused.
-/

namespace DBStream.Native.Meta

/-- A statement on an index. -/
inductive IndexStatement where
  | create (s : CreateIndex)
  | drop (s : DropIndex)

namespace IndexStatement

def ddl : IndexStatement → TableDdl
  | create s => s.toTableDdl
  | drop s => s.toTableDdl

def process (c : MetaDataCollection) (cp : Nat) : IndexStatement → Exec (Int × MetaDataCollection)
  | create s => c.createIndex s cp
  | drop s => c.dropIndex s cp

/-- The `ALTER TABLE` with the one sub-command that corresponds. -/
def alter (s : IndexStatement) : AlterTable where
  usedDb := s.ddl.usedDb
  database := s.ddl.database
  table := s.ddl.table
  detail := [match s with
    | create s => if s.unique then .addUniqueKey s.name s.columnNames else .addIndex s.name s.columnNames
    | drop s => .dropIndex s.name]

/-- The call that this sub-command makes. -/
def call : IndexStatement → KeyCall
  | create s => .addIndex s.name s.columnNames (if s.unique then .UNIQUE_KEY else .INDEX)
  | drop s => .dropIndex s.name

/-- The call has something to do: a key that can be added, or one that has the name. -/
def Applies (t : TableMeta) : IndexStatement → Prop
  | create s => Addable t s.name s.columnNames
  | drop s => ∃ p, t.dropped (.dropIndex s.name) = some p

end IndexStatement

/-- The drop of the key at `idx` leaves an array that can be freed: the key is the last of several, and
    where no other key has one of its columns the table has it. -/
def DropsWhole (t : TableMeta) (keys : List (Option UnionKeyMeta × String)) (idx : Nat) : Prop :=
  0 < idx ∧ idx + 1 = keys.length ∧ ∀ key name, keys[idx]? = some (some key, name) →
    ∀ c ∈ key.columnInfo, c.columnId < t.columnsCount ∨
      TableMeta.stillKey c.columnId keys.dropLast = .ok true

/-- The table that the call leaves can be deleted. -/
def IndexStatement.LeavesWhole (t : TableMeta) : IndexStatement → Prop
  | create _ => True
  | drop s => ∀ p ∈ t.dropped (.dropIndex s.name), DropsWhole t (t.keys p.1) p.2

/-- Every slot of the arrays of keys was written, so that the table can be copied. -/
def TableMeta.Written (t : TableMeta) : Prop :=
  TableMeta.allWritten t.m_uniqueKeys ∧ TableMeta.allWritten t.m_indexs

/-- A new version of a table is refused: its database is not known here nor to the server, or the newest
    version of the table is not older. -/
def MetaDataCollection.Refuses (c : MetaDataCollection) (database table : String) (cp : Nat) : Prop :=
  match findName c.caseSensitive database c.m_dbs with
  | none => (c.m_client.bind fun client => client.askDatabaseMeta database cp) = none
  | some db => ∃ currentDB metas m startPos prev, db.get cp = .ok (some currentDB) ∧
      findName c.caseSensitive table currentDB.tables = some metas ∧
      metas.m_current = .version m startPos prev ∧ cp ≤ startPos

/-- The `ALTER TABLE` is refused: there is no database or no table for it, its sub-command has nothing to
    do, or the collection refuses the new version, which is then deleted. -/
inductive Refused (c : MetaDataCollection) (s : IndexStatement) (cp : Nat) : Prop
  | noDatabase : s.ddl.getDatabase = none → Refused c s cp
  | noTable {database : String} : s.ddl.getDatabase = some database →
      c.get database s.ddl.table cp = .ok none → Refused c s cp
  | command {database : String} {t : TableMeta} : s.ddl.getDatabase = some database →
      c.get database s.ddl.table cp = .ok (some t) → t.Written → ¬s.Applies t → Refused c s cp
  | version {database : String} {t : TableMeta} : s.ddl.getDatabase = some database →
      c.get database s.ddl.table cp = .ok (some t) → t.Written → s.Applies t → s.LeavesWhole t →
      c.Refuses t.m_dbName t.m_tableName cp → Refused c s cp

/-- Both return, they succeed together, and every `get` answers the same after them, by name and by
    id. -/
def SameEffect (x y : Exec (Int × MetaDataCollection)) : Prop :=
  ∃ r₁ c₁ r₂ c₂, x = .ok (r₁, c₁) ∧ y = .ok (r₂, c₂) ∧ (r₁ = 0 ↔ r₂ = 0) ∧
    (∀ database table cp, c₁.get database table cp = c₂.get database table cp) ∧
    ∀ id m c₃, c₁.getById id = .ok (m, c₃) → ∃ c₄, c₂.getById id = .ok (m, c₄)

/-- The server answers no id with a table whose timeline has refused the `ALTER TABLE`. -/
def KeepsIds (c : MetaDataCollection) (s : IndexStatement) (cp : Nat) : Prop :=
  ∀ id reply logOffset l, c.Fetches id reply logOffset → c.refusedAt s.alter cp = some l →
    c.place reply.m_dbName reply.m_tableName logOffset ≠ some l

variable {c c' : MetaDataCollection} {s : IndexStatement} {cp : Nat} {t t' v : TableMeta}
  {a a' : KeyArray} {idx : Nat} {f g : ColumnMeta → ColumnMeta}

/-! ## The statements on indexes -/

theorem not_addable_empty (caseSensitive : Bool) (indexName : String) (columns : List String) :
    ¬Addable { caseSensitive := caseSensitive } indexName columns := by
  intro h
  obtain ⟨ids, types, hids, -⟩ := h.indexable
  cases columns with
  | nil => exact h.nonempty rfl
  | cons column columns =>
    cases hids

/-- The lookups with which every statement on a table begins. -/
def MetaDataCollection.onTable (c : MetaDataCollection) (ddl : TableDdl) (cp : Nat)
    (process : TableMeta → Exec (Int × MetaDataCollection)) : Exec (Int × MetaDataCollection) :=
  match ddl.getDatabase with
  | none => .ok (-1, c)
  | some database => do
    match ← c.get database ddl.table cp with
    | none => return (-1, c)
    | some t => process t

open Meta.MetaDataCollection (onTable)

theorem process_eq (c : MetaDataCollection) (s : IndexStatement) (cp : Nat) :
    s.process c cp = c.onTable s.ddl cp fun _ => .ok (-1, c) := by
  cases s with
  | create s =>
    simp only [IndexStatement.process, MetaDataCollection.createIndex, IndexStatement.ddl, onTable]
    cases s.getDatabase with
    | none => rfl
    | some database =>
      dsimp only
      cases c.get database s.table cp with
      | error e => rfl
      | ok t =>
        cases t with
        | none => rfl
        | some t =>
          obtain ⟨v, hv, columns, rfl, -⟩ := addIndex_refused
            (if s.unique then .UNIQUE_KEY else .INDEX)
            (not_addable_empty t.caseSensitive s.name s.columnNames)
          simp only [Exec.ok_bind, hv]
          rfl
  | drop s =>
    cases s.getDatabase with
    | none => rfl
    | some database =>
      cases c.get database s.table cp with
      | error e => rfl
      | ok t => cases t <;> rfl

/-! ## The sub-command of the `ALTER TABLE` -/

/-- What the `ALTER TABLE` does with the table. -/
def IndexStatement.alterOn (c : MetaDataCollection) (s : IndexStatement) (cp : Nat) (t : TableMeta) :
    Exec (Int × MetaDataCollection) := do
  let v ← t.copy
  let (ret, v) ← v.keyCall s.call
  if ret ≠ 0 then return (ret, c) else c.putVersion v cp

/-- An alter statement with one index is the call on its table. -/
theorem alterTable_eq (c : MetaDataCollection) (s : IndexStatement) (cp : Nat) :
    c.alterTable s.alter cp = c.onTable s.ddl cp (s.alterOn c cp) := by
  have hloop (database : String) (v : TableMeta) :
      c.applyCommands s.alter database cp v false s.alter.detail = (v.keyCall s.call).map fun p =>
        (p.1, p.2, false) := by
    have hone (command : AlterCommand) (h : c.applyCommand s.alter database cp v false command =
        (v.keyCall s.call).map fun p => (p.1, p.2, false)) :
        c.applyCommands s.alter database cp v false [command] =
          (v.keyCall s.call).map fun p => (p.1, p.2, false) := by
      rw [MetaDataCollection.applyCommands, h]
      cases v.keyCall s.call with
      | error e => rfl
      | ok p =>
        simp only [Except.map, Exec.ok_bind, MetaDataCollection.applyCommands]
        split
        · rfl
        · rename_i hzero
          rw [not_not.mp hzero]
    have hchange (x : Exec (Int × TableMeta)) :
        (do let (r, t) ← x; return (r, t, false)) = x.map fun p => (p.1, p.2, false) := by
      cases x <;> rfl
    refine hone _ ?_
    cases s with
    | create s =>
      dsimp only [IndexStatement.call]
      cases s.unique <;> exact hchange _
    | drop s => exact hchange _
  have hdatabase : s.alter.getDatabase = s.ddl.getDatabase := rfl
  have htable : s.alter.table = s.ddl.table := rfl
  simp only [MetaDataCollection.alterTable, onTable, hdatabase, htable]
  cases s.ddl.getDatabase with
  | none => rfl
  | some database =>
    dsimp only
    cases c.get database s.ddl.table cp with
    | error e => rfl
    | ok t =>
      cases t with
      | none => rfl
      | some t =>
        dsimp only [Exec.ok_bind, IndexStatement.alterOn]
        cases t.copy with
        | error e => rfl
        | ok v =>
          dsimp only [Exec.ok_bind]
          rw [hloop]
          cases v.keyCall s.call with
          | error e => rfl
          | ok p => rfl

/-! ## Drops that leave a table that can be deleted -/

theorem foldlM_ok_iff {α : Type} {f : TableMeta → α → Exec TableMeta} {P : α → Prop} {n : Nat}
    (hmarks : ∀ t x t', f t x = .ok t' → Remarked t t')
    (hturn : ∀ t x, t.columnsCount = n → ((∃ t', f t x = .ok t') ↔ P x)) {l : List α}
    (hn : t.columnsCount = n) : (∃ t', l.foldlM f t = .ok t') ↔ ∀ x ∈ l, P x := by
  induction l generalizing t with
  | nil => exact ⟨fun _ x hx => absurd hx List.not_mem_nil, fun _ => ⟨t, rfl⟩⟩
  | cons x l ih =>
    rw [List.foldlM_cons, List.forall_mem_cons, ← hturn t x hn]
    constructor
    · rintro ⟨t', h⟩
      obtain ⟨t₁, hx, hrest⟩ := Exec.of_bind h
      exact ⟨⟨t₁, hx⟩, (ih ((hmarks t x t₁ hx).columnsCount.trans hn)).mp ⟨t', hrest⟩⟩
    · rintro ⟨⟨t₁, hx⟩, hl⟩
      obtain ⟨t', hrest⟩ := (ih ((hmarks t x t₁ hx).columnsCount.trans hn)).mpr hl
      exact ⟨t', by rw [hx, Exec.ok_bind, hrest]⟩

theorem modifyAt_ok_iff {i : Nat} : (∃ t', t.modifyAt i f = .ok t') ↔ i < t.columnsCount := by
  unfold TableMeta.modifyAt
  constructor
  · rintro ⟨t', h⟩
    split at h
    · cases h
    · split at h
      · cases h
      · omega
  · intro h
    rw [if_neg (by omega), if_neg (by omega)]
    exact ⟨_, rfl⟩

theorem allWritten_iff {a : KeyArray} : TableMeta.allWritten a = true ↔ ∀ k ∈ a.keys, k.1 ≠ none := by
  simp only [TableMeta.allWritten, List.all_eq_true, Option.isSome_iff_ne_none]

/-- When the drop of a key leaves an array that can be freed. -/
theorem dropKeyAt_whole_iff (hf : Marks f) (hg : Marks g) (hwritten : TableMeta.allWritten a = true)
    (hidx : idx < a.keys.length) :
    (∃ a' t', t.dropKeyAt a idx f g = .ok (a', t') ∧ a'.freed = false ∧
      TableMeta.allWritten a' = true) ↔ DropsWhole t a.keys idx := by
  have hkeys := allWritten_iff.mp hwritten
  by_cases hinner : idx + 1 < a.keys.length
  · -- the last slot of the new array is not written
    refine iff_of_false ?_ fun h => absurd h.2.1 (by omega)
    rintro ⟨a', t', hdrop, -, hall⟩
    obtain ⟨-, hone | ⟨-, hnew⟩⟩ := dropKeyAt_cases hf hg hdrop
    · omega
    · exact absurd rfl (allWritten_iff.mp hall _ (withoutKey_inner hinner hnew))
  obtain ⟨done, ⟨key, name⟩, hsplit⟩ := List.eq_nil_or_concat a.keys |>.resolve_left fun hnil => by
    rw [hnil] at hidx
    cases hidx
  rw [List.concat_eq_append] at hsplit
  have hlen : done.length = idx := by
    rw [hsplit, List.length_append, List.length_singleton] at hidx hinner
    omega
  have hget : a.keys[idx]? = some (key, name) := by rw [hsplit, ← hlen, List.getElem?_concat_length]
  cases key with
  | none => exact absurd rfl (hkeys _ (List.mem_of_getElem? hget))
  | some key =>
    have hdone : ∀ k ∈ done, k.1 ≠ none := fun k hk => hkeys k (by rw [hsplit]; simp [hk])
    unfold TableMeta.dropKeyAt DropsWhole
    rw [tableAt_of_getElem? hget, Exec.ok_bind, hget, hsplit, List.dropLast_concat]
    dsimp only
    rw [List.length_append, List.length_singleton]
    by_cases hone : done.length + 1 = 1
    · -- the array is freed
      refine iff_of_false ?_ fun h => absurd h.1 (by omega)
      rintro ⟨a', t', hdrop, hfreed, -⟩
      rw [if_pos hone] at hdrop
      obtain ⟨t₁, -, hret⟩ := Exec.of_bind hdrop
      cases hret
      cases hfreed
    · rw [if_neg hone, ← hlen, withoutKey_last, Exec.ok_bind]
      have hloop := foldlM_ok_iff (t := t) (l := key.columnInfo) (n := t.columnsCount)
        (P := fun c => c.columnId < t.columnsCount ∨ TableMeta.stillKey c.columnId done = .ok true)
        (f := fun t c => do
          if ← TableMeta.stillKey c.columnId done then return t else t.modifyAt c.columnId g)
        (fun t c t' hturn => by
          obtain ⟨still, -, hturn⟩ := Exec.of_bind hturn
          cases still with
          | true =>
            cases hturn
            exact .refl _
          | false => exact modifyAt_remarked hg hturn)
        (fun t₁ c hcount => by
          obtain ⟨still, hstill⟩ := stillKey_ok hdone c.columnId
          rw [hstill, Exec.ok_bind, ← hcount]
          cases still with
          | true => exact iff_of_true ⟨t₁, rfl⟩ (.inr rfl)
          | false => exact modifyAt_ok_iff.trans (or_iff_left (by simp)).symm) rfl
      constructor
      · rintro ⟨a', t', hdrop, -, -⟩
        obtain ⟨t₁, hrun, -⟩ := Exec.of_bind hdrop
        refine ⟨by omega, by omega, ?_⟩
        intro key' name' heq
        cases heq
        exact hloop.mp ⟨t₁, hrun⟩
      · rintro ⟨-, -, hall⟩
        obtain ⟨t₁, hrun⟩ := hloop.mpr (hall key name rfl)
        exact ⟨{ keys := done }, t₁, by rw [hrun]; rfl, rfl, allWritten_iff.mpr hdone⟩

/-! ## The call on the copy of a table -/

def TableMeta.copied (t : TableMeta) : TableMeta :=
  { t with
    m_uniqueKeys := { t.m_uniqueKeys with freed := false }
    m_indexs := { t.m_indexs with freed := false } }

theorem copy_eq_ok : t.copy = .ok v ↔ t.Written ∧ v = t.copied := by
  unfold TableMeta.copy TableMeta.Written
  split
  case isTrue h => exact ⟨fun heq => ⟨h, by cases heq; rfl⟩, fun heq => by rw [heq.2]; rfl⟩
  case isFalse h => exact ⟨nofun, fun heq => absurd heq.1 h⟩

theorem delete_eq_ok : v.delete = .ok () ↔
    v.m_uniqueKeys.freed = false ∧ v.m_indexs.freed = false ∧ v.Written := by
  unfold TableMeta.delete TableMeta.Written
  cases v.m_uniqueKeys.freed <;> cases v.m_indexs.freed <;> simp

theorem call_refused (h : ¬s.Applies t) : ∃ v, t.keyCall s.call = .ok (-1, v) := by
  cases s with
  | create s =>
    obtain ⟨v, hv, -⟩ := addIndex_refused (if s.unique then .UNIQUE_KEY else .INDEX) h
    exact ⟨v, hv⟩
  | drop s =>
    refine ⟨t, ?_⟩
    show t.dropIndex s.name = _
    have hdropped : t.dropped (.dropIndex s.name) = none :=
      Option.eq_none_iff_forall_ne_some.mpr fun p hp => h ⟨p, hp⟩
    unfold TableMeta.dropIndex
    simp only [TableMeta.dropped] at hdropped
    cases hindex : t.keyId t.m_indexs s.name with
    | some idx =>
      rw [hindex] at hdropped
      cases hdropped
    | none =>
      rw [hindex] at hdropped
      rw [Option.map_eq_none_iff.mp hdropped]

theorem applies_copied : s.Applies t.copied ↔ s.Applies t := by
  cases s with
  | create s => exact ⟨fun h => ⟨h.1, h.2, h.3, h.4⟩, fun h => ⟨h.1, h.2, h.3, h.4⟩⟩
  | drop s => exact Iff.rfl

theorem delete_setKeyArray {kind : KeyType} (hkind : kind ≠ .PRIMARY_KEY) (hv : v.delete = .ok ()) :
    (v.setKeyArray a kind).delete = .ok () ↔ a.freed = false ∧ TableMeta.allWritten a = true := by
  obtain ⟨hunique, hindex, hwritten⟩ := delete_eq_ok.mp hv
  rw [delete_eq_ok]
  cases kind with
  | PRIMARY_KEY => exact absurd rfl hkind
  | UNIQUE_KEY => exact ⟨fun h => ⟨h.1, h.2.2.1⟩, fun h => ⟨h.1, hindex, h.2, hwritten.2⟩⟩
  | INDEX => exact ⟨fun h => ⟨h.2.1, h.2.2.2⟩, fun h => ⟨hunique, h.1, hwritten.1, h.2⟩⟩

theorem delete_copied (h : t.Written) (hmarked : Remarked t.copied t') : t'.delete = .ok () := by
  obtain ⟨columns, rfl, -⟩ := hmarked
  exact delete_eq_ok.mpr ⟨rfl, rfl, h⟩

theorem allWritten_keyArray (h : t.Written) {kind : KeyType} (hkind : kind ≠ .PRIMARY_KEY) :
    TableMeta.allWritten (t.keyArray kind) = true := by
  cases kind with
  | PRIMARY_KEY => exact absurd rfl hkind
  | UNIQUE_KEY => exact h.1
  | INDEX => exact h.2

/-- A call that has something to do succeeds, if it returns.  The table it leaves has the old name, and
    can be deleted where the call leaves its keys whole. -/
theorem call_applied (h : s.Applies t) (hwritten : t.Written) :
    (∀ r v, t.copied.keyCall s.call = .ok (r, v) →
      r = 0 ∧ v.m_dbName = t.m_dbName ∧ v.m_tableName = t.m_tableName) ∧
    ((∃ v, t.copied.keyCall s.call = .ok (0, v) ∧ v.delete = .ok ()) ↔ s.LeavesWhole t) := by
  rw [← applies_copied] at h
  cases s with
  | create s =>
    have hkind : (if s.unique then KeyType.UNIQUE_KEY else .INDEX) ≠ .PRIMARY_KEY := by
      split <;> decide
    generalize hcolumns : s.columnNames = columns at h
    cases columns with
    | nil => exact absurd hcolumns h.nonempty
    | cons column columns =>
      rw [IndexStatement.Applies, hcolumns] at h
      obtain ⟨ids, key, name, t₁, -, -, -, hmarked, hadd⟩ := addIndex_ok hkind h
      rw [← hcolumns] at hadd
      -- a new key is never null, so it can be deleted with the old ones
      have hdelete := delete_copied hwritten hmarked
      refine ⟨fun r v hcall => ?_, iff_of_true ⟨_, hadd, ?_⟩ trivial⟩
      · cases hadd.symm.trans hcall
        obtain ⟨columns, rfl, -⟩ := hmarked
        refine ⟨rfl, ?_⟩
        split <;> exact ⟨rfl, rfl⟩
      · refine (delete_setKeyArray hkind hdelete).mpr ⟨rfl, allWritten_iff.mpr fun k hk => ?_⟩
        rcases List.mem_append.mp hk with hk | hk
        · rw [keys_eq_keyArray] at hk
          exact allWritten_iff.mp (allWritten_keyArray (t := t.copied) hwritten hkind) k hk
        · rw [List.mem_singleton.mp hk]
          exact Option.some_ne_none key
  | drop s =>
    obtain ⟨⟨kind, idx⟩, hdropped⟩ := h
    obtain ⟨hkind, hidx, f, g, hf, hg, hcall⟩ := keyCall_of_dropped hdropped
    rw [keys_eq_keyArray] at hidx
    -- a drop leaves an array that can be freed only where it takes the last of several keys
    have hwhole := dropKeyAt_whole_iff (t := t.copied) hf hg
      (allWritten_keyArray (t := t.copied) hwritten hkind) hidx
    have hleaves : (IndexStatement.drop s).LeavesWhole t ↔ DropsWhole t (t.keys kind) idx := by
      refine ⟨fun h => h (kind, idx) hdropped, fun h p hp => ?_⟩
      cases hdropped.symm.trans (Option.mem_def.mp hp)
      exact h
    have hkeys : (t.copied.keyArray kind).keys = t.keys kind := by cases kind <;> rfl
    rw [hkeys] at hwhole
    rw [hleaves, IndexStatement.call, hcall]
    constructor
    · intro r v hv
      obtain ⟨⟨a, t₁⟩, hdrop, hret⟩ := Exec.of_bind hv
      cases hret
      obtain ⟨⟨columns, rfl, -⟩, -⟩ := dropKeyAt_cases hf hg hdrop
      cases kind <;> exact ⟨rfl, rfl, rfl⟩
    · refine Iff.trans ⟨?_, ?_⟩ hwhole
      · rintro ⟨v, hv, hdelete⟩
        obtain ⟨⟨a, t₁⟩, hdrop, hret⟩ := Exec.of_bind hv
        cases hret
        have hmarked := (dropKeyAt_cases hf hg hdrop).1
        exact ⟨a, t₁, hdrop, (delete_setKeyArray hkind (delete_copied hwritten hmarked)).mp hdelete⟩
      · rintro ⟨a, t₁, hdrop, ha⟩
        have hmarked := (dropKeyAt_cases hf hg hdrop).1
        exact ⟨_, by rw [hdrop]; rfl,
          (delete_setKeyArray hkind (delete_copied hwritten hmarked)).mpr ha⟩

/-! ## A version that is refused -/

theorem link_refused_iff (v : TableMeta) (cp : Nat) (metas : MetaTimeline TableMeta) :
    (∃ r m metas', metas.put (some v) cp = .ok (r, m, metas') ∧ r ≠ 0) ↔
      ∃ m startPos prev, metas.m_current = .version m startPos prev ∧ cp ≤ startPos := by
  simp only [MetaTimeline.put, MetaTimeline.assignId, MetaTimeline.link]
  cases metas.m_current with
  | null => simp
  | freed => simp
  | version m startPos prev =>
    dsimp only
    split
    case isTrue hle => exact iff_of_true ⟨-1, _, _, rfl, by decide⟩ ⟨m, startPos, prev, rfl, hle⟩
    case isFalse hlt =>
      refine iff_of_false ?_ ?_
      · rintro ⟨r, m', metas', hput, hr⟩
        cases hput
        exact hr rfl
      · rintro ⟨m', startPos', prev', heq, hle⟩
        cases heq
        exact hlt hle

theorem putIn_refused_iff (c : MetaDataCollection) (v : TableMeta) (cp : Nat) (currentDB : DbInfo)
    (table : String) :
    (∃ r m db id, c.putIn currentDB table (some v) cp = .ok (r, m, db, id) ∧ r ≠ 0) ↔
      ∃ metas m startPos prev, findName c.caseSensitive table currentDB.tables = some metas ∧
        metas.m_current = .version m startPos prev ∧ cp ≤ startPos := by
  unfold MetaDataCollection.putIn
  cases findName c.caseSensitive table currentDB.tables with
  | none =>
    refine iff_of_false ?_ ?_
    · rintro ⟨r, m, db, id, hput, hr⟩
      cases hput
      exact hr rfl
    · rintro ⟨metas, m, startPos, prev, hfind, -⟩
      cases hfind
  | some metas =>
    have hlink := link_refused_iff v cp metas
    constructor
    · rintro ⟨r, m, db, id, hput, hr⟩
      obtain ⟨⟨r', m', metas'⟩, hlinked, hret⟩ := Exec.of_bind hput
      cases hret
      obtain ⟨m, startPos, prev, h⟩ := hlink.mp ⟨r', _, metas', hlinked, by
        rintro rfl
        exact hr (by simp)⟩
      exact ⟨metas, m, startPos, prev, rfl, h⟩
    · rintro ⟨metas', m, startPos, prev, heq, h⟩
      cases heq
      obtain ⟨r, m', metas', hlinked, hr⟩ := hlink.mpr ⟨m, startPos, prev, h⟩
      refine ⟨-1, m', { currentDB with
        tables := setName c.caseSensitive table metas' currentDB.tables }, c.m_maxTableId, ?_, by decide⟩
      dsimp only
      rw [hlinked, Exec.ok_bind]
      rw [if_pos ⟨rfl, hr⟩]
      rfl

/-- When a collection refuses a table. -/
theorem put_refused_iff {database table : String} :
    (∃ r m c', c.put database table (some v) cp = .ok (r, m, c') ∧ r ≠ 0) ↔
      c.Refuses database table cp := by
  unfold MetaDataCollection.put MetaDataCollection.Refuses
  cases hdb : findName c.caseSensitive database c.m_dbs with
  -- a database that is not known is asked for, and without a client that fails
  | none =>
    cases c.m_client.bind fun client => client.askDatabaseMeta database cp with
    | none => exact iff_of_true ⟨-1, _, c, rfl, by decide⟩ rfl
    | some p =>
      refine iff_of_false ?_ nofun
      rintro ⟨r, m, c', hput, hr⟩
      obtain ⟨_, -, hput⟩ := Exec.of_bind hput
      obtain ⟨_, -, hput⟩ := Exec.of_bind hput
      obtain ⟨_, -, hput⟩ := Exec.of_bind hput
      cases hput
      exact hr rfl
  | some db =>
    dsimp only
    cases hget : db.get cp with
    | error e =>
      refine iff_of_false ?_ ?_
      · rintro ⟨r, m, c', hput, -⟩
        cases hput
      · rintro ⟨currentDB, metas, m, startPos, prev, h, -⟩
        cases h
    | ok currentDB =>
      cases currentDB with
      | none =>
        refine iff_of_false ?_ ?_
        · rintro ⟨r, m, c', hput, -⟩
          cases hput
        · rintro ⟨currentDB, metas, m, startPos, prev, h, -⟩
          cases h
      | some currentDB =>
        -- in a known database the tables decide, and the call hands their refusal on as -1
        have hin := putIn_refused_iff c v cp currentDB table
        constructor
        · rintro ⟨r, m, c', hput, hr⟩
          rw [Exec.ok_bind] at hput
          obtain ⟨⟨r', m', db', id⟩, hputIn, hput⟩ := Exec.of_bind hput
          split at hput
          case isTrue hr' =>
            obtain ⟨metas, m, startPos, prev, h⟩ := hin.mp ⟨r', m', db', id, hputIn, hr'⟩
            exact ⟨currentDB, metas, m, startPos, prev, rfl, h⟩
          case isFalse =>
            obtain ⟨_, -, hput⟩ := Exec.of_bind hput
            cases hput
            exact absurd rfl hr
        · rintro ⟨currentDB', metas, m, startPos, prev, heq, h⟩
          cases heq
          obtain ⟨r, m', db', id, hputIn, hr⟩ := hin.mpr ⟨metas, m, startPos, prev, h⟩
          refine ⟨-1, m', { c with
            m_dbs := setName c.caseSensitive database (db.replaceAt cp db') c.m_dbs
            m_maxTableId := id }, ?_, by decide⟩
          rw [Exec.ok_bind]
          dsimp only
          rw [hputIn, Exec.ok_bind]
          rw [if_pos hr]
          rfl

theorem putVersion_failed_iff :
    (∃ r c', c.putVersion v cp = .ok (r, c') ∧ r ≠ 0) ↔
      c.Refuses v.m_dbName v.m_tableName cp ∧ v.delete = .ok () := by
  rw [← put_refused_iff (v := v)]
  unfold MetaDataCollection.putVersion
  constructor
  · rintro ⟨r, c', h, hr⟩
    obtain ⟨⟨r', m, c₁⟩, hput, h⟩ := Exec.of_bind h
    dsimp only at h
    split at h
    case isTrue hr' =>
      obtain ⟨_, hdelete, -⟩ := Exec.of_bind h
      exact ⟨⟨r', m, c₁, hput, hr'⟩, hdelete⟩
    case isFalse =>
      cases h
      exact absurd rfl hr
  · rintro ⟨⟨r, m, c', hput, hr⟩, hdelete⟩
    refine ⟨-1, c', ?_, by decide⟩
    rw [hput, Exec.ok_bind]
    dsimp only
    rw [if_pos hr, hdelete]
    rfl

/-! ## Both statements -/

theorem alterOn_failed_iff :
    (∃ r c', s.alterOn c cp t = .ok (r, c') ∧ r ≠ 0) ↔
      t.Written ∧ (s.Applies t → s.LeavesWhole t ∧ c.Refuses t.m_dbName t.m_tableName cp) := by
  unfold IndexStatement.alterOn
  by_cases hwritten : t.Written
  swap
  · refine iff_of_false ?_ fun h => hwritten h.1
    rintro ⟨r, c', h, -⟩
    obtain ⟨v, hcopy, -⟩ := Exec.of_bind h
    exact hwritten (copy_eq_ok.mp hcopy).1
  rw [copy_eq_ok.mpr ⟨hwritten, rfl⟩, Exec.ok_bind, and_iff_right hwritten]
  by_cases happlies : s.Applies t
  swap
  · obtain ⟨v, hcall⟩ := call_refused (mt applies_copied.mp happlies)
    exact iff_of_true ⟨-1, c, by rw [hcall]; rfl, by decide⟩ fun h => absurd h happlies
  obtain ⟨hcalled, hwhole⟩ := call_applied happlies hwritten
  rw [imp_iff_right happlies]
  constructor
  · rintro ⟨r, c', h, hr⟩
    obtain ⟨⟨r', v⟩, hcall, h⟩ := Exec.of_bind h
    obtain ⟨rfl, hdb, htable⟩ := hcalled r' v hcall
    obtain ⟨hrefuses, hdelete⟩ := putVersion_failed_iff.mp ⟨r, c', h, hr⟩
    exact ⟨hwhole.mp ⟨v, hcall, hdelete⟩, by rwa [← hdb, ← htable]⟩
  · rintro ⟨hleaves, hrefuses⟩
    obtain ⟨v, hcall, hdelete⟩ := hwhole.mpr hleaves
    obtain ⟨-, hdb, htable⟩ := hcalled 0 v hcall
    rw [← hdb, ← htable] at hrefuses
    obtain ⟨r, c', hput, hr⟩ := putVersion_failed_iff.mpr ⟨hrefuses, hdelete⟩
    exact ⟨r, c', by rw [hcall]; exact hput, hr⟩

/-- When an alter statement with one index fails. -/
theorem alterTable_failed_iff_refused :
    (∃ r c', c.alterTable s.alter cp = .ok (r, c') ∧ r ≠ 0) ↔ Refused c s cp := by
  rw [alterTable_eq, onTable]
  cases hdatabase : s.ddl.getDatabase with
  | none => exact iff_of_true ⟨-1, c, rfl, by decide⟩ (.noDatabase hdatabase)
  | some database =>
    dsimp only
    have hcase {P : Prop} : Refused c s cp → (c.get database s.ddl.table cp = .ok none → P) →
        (∀ t, c.get database s.ddl.table cp = .ok (some t) → t.Written →
          (s.Applies t → s.LeavesWhole t ∧ c.Refuses t.m_dbName t.m_tableName cp) → P) → P := by
      intro h hnone hsome
      cases h with
      | noDatabase h => cases hdatabase.symm.trans h
      | noTable h hget =>
        cases hdatabase.symm.trans h
        exact hnone hget
      | command h hget hwritten happlies =>
        cases hdatabase.symm.trans h
        exact hsome _ hget hwritten fun ha => absurd ha happlies
      | version h hget hwritten happlies hleaves hrefuses =>
        cases hdatabase.symm.trans h
        exact hsome _ hget hwritten fun _ => ⟨hleaves, hrefuses⟩
    cases hget : c.get database s.ddl.table cp with
    | error e =>
      refine iff_of_false ?_ fun h => hcase h (fun h => ?_) fun t h _ _ => ?_
      · rintro ⟨r, c', h, -⟩
        cases h
      · cases hget.symm.trans h
      · cases hget.symm.trans h
    | ok t =>
      cases t with
      | none => exact iff_of_true ⟨-1, c, rfl, by decide⟩ (.noTable hdatabase hget)
      | some t =>
        rw [Exec.ok_bind]
        rw [alterOn_failed_iff]
        constructor
        · rintro ⟨hwritten, h⟩
          by_cases happlies : s.Applies t
          · exact .version hdatabase hget hwritten happlies (h happlies).1 (h happlies).2
          · exact .command hdatabase hget hwritten happlies
        · intro h
          refine hcase h (fun h => ?_) fun t' h hwritten hrefused => ?_
          · cases hget.symm.trans h
          · cases hget.symm.trans h
            exact ⟨hwritten, hrefused⟩

private theorem process_failed {r : Int} (h : s.process c cp = .ok (r, c')) : r = -1 ∧ c' = c := by
  rw [process_eq, onTable] at h
  split at h
  · cases h
    exact ⟨rfl, rfl⟩
  · obtain ⟨t, -, h⟩ := Exec.of_bind h
    cases t <;> cases h <;> exact ⟨rfl, rfl⟩

/-- A statement on an index, and the `ALTER TABLE` that corresponds, have the same effect where the
    `ALTER TABLE` is refused and changes no answer of the server, and only there. -/
theorem createIndex_dropIndex_same_iff (c : MetaDataCollection) (s : IndexStatement) (cp : Nat) :
    SameEffect (s.process c cp) (c.alterTable s.alter cp) ↔ Refused c s cp ∧ KeepsIds c s cp := by
  rw [← alterTable_failed_iff_refused]
  constructor
  · rintro ⟨r₁, c₁, r₂, c₂, hprocess, halter, hsame, hnames, hids⟩
    obtain ⟨rfl, rfl⟩ := process_failed hprocess
    have hr : r₂ ≠ 0 := fun hzero => absurd (hsame.mpr hzero) (by decide)
    refine ⟨⟨r₂, c₂, halter, hr⟩, ?_⟩
    exact (MetaDataCollection.alterTable_failed_iff halter hr).mp
      ⟨fun database table x => (hnames database table x).symm, hids⟩
  · rintro ⟨⟨r, c', halter, hr⟩, hkeeps⟩
    have hprocess : s.process c cp = .ok (-1, c) := by
      rw [process_eq]
      rw [alterTable_eq] at halter
      unfold onTable at halter ⊢
      split at halter
      · rfl
      · obtain ⟨t, hget, -⟩ := Exec.of_bind halter
        rw [hget, Exec.ok_bind]
        cases t <;> rfl
    obtain ⟨hnames, hids⟩ := (MetaDataCollection.alterTable_failed_iff halter hr).mpr hkeeps
    exact ⟨-1, c, r, c', hprocess, halter, iff_of_false (by decide) hr,
      fun database table x => (hnames database table x).symm, hids⟩

def oneTable : MetaDataCollection where
  m_dbs := [("d", ⟨.version (some {
    name := "d"
    tables := [("t", ⟨.version (some {
      m_dbName := "d"
      m_tableName := "t"
      m_columns := [{ m_columnType := .T_INT32, m_columnName := "a" }]
      m_id := 65536 }) 20 .null, 1, 1⟩)] }) 10 .null, 10, 1⟩)]
  m_maxTableId := 2

def createIndexA : IndexStatement :=
  .create {
    usedDb := "d"
    database := ""
    table := "t"
    unique := false
    name := "i"
    columnNames := ["a"] }

theorem createIndex_not_same :
    ((createIndexA.process oneTable 30).map Prod.fst, (oneTable.alterTable createIndexA.alter 30).map
      Prod.fst) = (.ok (-1), .ok 0) ∧
    ¬SameEffect (createIndexA.process oneTable 30) (oneTable.alterTable createIndexA.alter 30) := by
  have hresults : ((createIndexA.process oneTable 30).map Prod.fst,
      (oneTable.alterTable createIndexA.alter 30).map Prod.fst) = (.ok (-1), .ok 0) := by
    decide +kernel
  refine ⟨hresults, ?_⟩
  rintro ⟨r₁, c₁, r₂, c₂, hprocess, halter, hsame, -⟩
  rw [hprocess, halter] at hresults
  cases hresults
  exact absurd (hsame.mpr rfl) (by decide)

end DBStream.Native.Meta
