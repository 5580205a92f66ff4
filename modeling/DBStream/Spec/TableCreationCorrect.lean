import DBStream.Native.TableCreation
import DBStream.Spec.TableIdTreeCorrect
import DBStream.Spec.TableRenamesCorrect

/-!
# `CREATE TABLE` and the keys that are declared

The flags of the columns and the clauses of a statement declare keys.  `createTable` makes them in turn
(`createTable_declared_iff`); a unique key on a column sets the flag that makes an index on the column
as well, so the columns that are `UNIQUE` decide what becomes of the statement.
-/

namespace DBStream.Native.Meta

/-! ## Names of keys -/

/-- A name is found at a place above `0`. -/
def foundAbove (caseSensitive : Bool) (names : List String) (name : String) : Bool :=
  (names.findIdx? fun n => nameEq caseSensitive n name).any fun i => decide (0 < i)

/-- `getIndex` or `getUniqueKey` finds a name among keys. -/
def takenName (caseSensitive : Bool) (ks : KeyType → List (List Nat × String)) (name : String) : Bool :=
  foundAbove caseSensitive ((ks .INDEX).map Prod.snd) name ||
    foundAbove caseSensitive ((ks .UNIQUE_KEY).map Prod.snd) name

/-- The name that a new key gets: its own, or that of its first column, with a number if it is taken. -/
def newName (caseSensitive : Bool) (ks : KeyType → List (List Nat × String)) (k : AddKey) : String :=
  let column := k.columnNames.headD ""
  let candidates := (List.range ((ks .INDEX).length + (ks .UNIQUE_KEY).length + 1)).map fun i =>
    column ++ "_" ++ toString (i + 2)
  if k.name ≠ "" then k.name
  else if takenName caseSensitive ks column = false then column
  else (candidates.find? fun name => !takenName caseSensitive ks name).getD ""

variable {t t' t'' t₀ : TableMeta} {k : AddKey} {kind : KeyType} {ids : List Nat}
  {ks : KeyType → List (List Nat × String)} {mark : ColumnMeta → ColumnMeta}

theorem keyColumns_names (t : TableMeta) (kind : KeyType) :
    (t.keyColumns kind).map Prod.snd = (t.keys kind).map Prod.snd := by
  rw [TableMeta.keyColumns, List.map_map]
  rfl

theorem getKey_isSome (t : TableMeta) (a : KeyArray) (name : String) :
    (t.getKey a name).isSome = foundAbove t.caseSensitive (a.keys.map Prod.snd) name := by
  rw [foundAbove, List.findIdx?_map, TableMeta.getKey, TableMeta.keyId]
  show _ = Option.any _ (a.keys.findIdx? fun k => nameEq t.caseSensitive k.2 name)
  cases hfind : a.keys.findIdx? fun k => nameEq t.caseSensitive k.2 name with
  | none => rfl
  | some i =>
    cases i with
    | zero => rfl
    | succ i =>
      have hlt := (List.findIdx?_eq_some_iff_getElem.mp hfind).1
      simp [List.getElem?_eq_getElem hlt]

theorem hasKey_eq (t : TableMeta) (name : String) :
    t.hasKey name = takenName t.caseSensitive t.keyColumns name := by
  rw [TableMeta.hasKey, takenName, getKey_isSome, getKey_isSome, keyColumns_names, keyColumns_names]
  rfl

theorem indexNameOf_eq (t : TableMeta) (k : AddKey) :
    t.indexNameOf k.name (k.columnNames.headD "") = .ok (newName t.caseSensitive t.keyColumns k) := by
  obtain ⟨name, hname⟩ := indexNameOf_ok t k.name (k.columnNames.headD "")
  rw [hname]
  have hlength (kind : KeyType) : (t.keyColumns kind).length = (t.keys kind).length := List.length_map _
  unfold TableMeta.indexNameOf at hname
  unfold newName
  simp only [hlength]
  split at hname
  case isTrue hne =>
    rw [if_pos hne]
    exact hname.symm
  case isFalse hne =>
    rw [if_neg hne, ← hasKey_eq]
    split at hname
    case isTrue hfree =>
      rw [if_pos (by simpa using hfree)]
      exact hname.symm
    case isFalse htaken =>
      rw [if_neg (by simpa using htaken)]
      dsimp only at hname
      simp only [← hasKey_eq]
      split at hname
      case h_1 => cases hname
      case h_2 candidate hfind =>
        cases hname
        exact congrArg Except.ok (congrArg (Option.getD · "") hfind).symm

/-! ## What steps leave as it was -/

/-- A column without what the statement sets. -/
def plain (c : ColumnMeta) : ColumnMeta := { unmarked c with m_charset := none, m_size := 0 }

/-- Two tables with the same columns, but for flags and charsets. -/
structure SameTable (t₀ t : TableMeta) : Prop where
  columns : t.m_columns.map plain = t₀.m_columns.map plain
  caseSensitive : t.caseSensitive = t₀.caseSensitive
  dbName : t.m_dbName = t₀.m_dbName
  tableName : t.m_tableName = t₀.m_tableName
  charset : t.m_charset = t₀.m_charset

theorem SameTable.refl (t : TableMeta) : SameTable t t := ⟨rfl, rfl, rfl, rfl, rfl⟩

theorem SameTable.trans (h : SameTable t t') (h' : SameTable t' t'') : SameTable t t'' :=
  ⟨h'.columns.trans h.columns, h'.caseSensitive.trans h.caseSensitive, h'.dbName.trans h.dbName,
    h'.tableName.trans h.tableName, h'.charset.trans h.charset⟩

theorem Remarked.sameTable (h : Remarked t t') : SameTable t t' := by
  have hcolumns := congrArg (List.map fun c : ColumnMeta => { c with m_charset := none, m_size := 0 })
    h.columns
  rw [List.map_map, List.map_map] at hcolumns
  obtain ⟨columns, rfl, -⟩ := h
  exact ⟨hcolumns, rfl, rfl, rfl, rfl⟩

theorem SameTable.map_eq (h : SameTable t t') {α : Type} {field : ColumnMeta → α}
    (hfield : ∀ c, field (plain c) = field c) : t'.m_columns.map field = t.m_columns.map field := by
  have hmap (l : List ColumnMeta) : l.map field = (l.map plain).map field := by
    rw [List.map_map]
    exact List.map_congr_left fun c _ => (hfield c).symm
  rw [hmap, h.columns, ← hmap]

theorem SameTable.types (h : SameTable t t') : t'.types = t.types := h.map_eq fun _ => rfl

theorem columnIds_eq (t : TableMeta) (names : List String) :
    t.columnIds names = names.mapM fun name => ((t.m_columns.map fun c => (c.m_columnName, c.m_columnIndex)).find?
      fun c => nameEq t.caseSensitive c.1 name).map Prod.snd := by
  unfold TableMeta.columnIds
  congr 1
  funext name
  rw [List.find?_map, Option.map_map]
  rfl

theorem SameTable.columnIds (h : SameTable t t') (names : List String) :
    t'.columnIds names = t.columnIds names := by
  have hsame : (t'.m_columns.map fun c => (c.m_columnName, c.m_columnIndex)) =
      t.m_columns.map fun c => (c.m_columnName, c.m_columnIndex) := h.map_eq fun _ => rfl
  rw [columnIds_eq, columnIds_eq, hsame, h.caseSensitive]

/-! ## One key -/

/-- The keys with one more of a kind. -/
def added (ks : KeyType → List (List Nat × String)) (kind : KeyType) (k : List Nat × String)
    (kind' : KeyType) : List (List Nat × String) :=
  if kind' = kind then ks kind' ++ [k] else ks kind'

/-- The columns are there and may be in a key. -/
def Indexable (t : TableMeta) (columns : List String) : Prop :=
  ∃ ids types, t.columnIds columns = some ids ∧ keyTypes t.types ids = some types

/-- Whether a key on such columns can be made beside others. -/
def CanAdd (caseSensitive : Bool) (ks : KeyType → List (List Nat × String)) (kind : KeyType)
    (k : AddKey) : Prop :=
  k.columnNames ≠ [] ∧ k.columnNames.length < 256 ∧ (kind = .PRIMARY_KEY → ks kind = []) ∧
    (kind ≠ .PRIMARY_KEY → k.name ≠ "" → takenName caseSensitive ks k.name = false)

/-- The name under which a key is found. -/
def nameOf (caseSensitive : Bool) (ks : KeyType → List (List Nat × String)) (kind : KeyType)
    (k : AddKey) : String :=
  if kind = .PRIMARY_KEY then "" else newName caseSensitive ks k

namespace TableMeta

def addKey (t : TableMeta) (kind : KeyType) (k : AddKey) : Exec (Int × TableMeta) :=
  if kind = .PRIMARY_KEY then t.createPrimaryKey k.columnNames
  else t.addIndex k.name k.columnNames kind

end TableMeta

theorem SameTable.indexable (h : SameTable t t') {columns : List String} :
    Indexable t' columns ↔ Indexable t columns := by
  rw [Indexable, Indexable, h.columnIds, h.types]

theorem keyColumns_setKeyArray (hkind : kind ≠ .PRIMARY_KEY) (hmarked : Remarked t t')
    {key : UnionKeyMeta} (hkey : key.columnInfo.map UniqueKeyTypePair.columnId = ids) (name : String) :
    (t'.setKeyArray { keys := t.keys kind ++ [(some key, name)] } kind).keyColumns =
      added t.keyColumns kind (ids, name) := by
  have hnew : ((some key : Option UnionKeyMeta).toList.flatMap fun key => key.columnInfo.map
      UniqueKeyTypePair.columnId) = ids := (List.append_nil _).trans hkey
  obtain ⟨columns, rfl, -⟩ := hmarked
  funext kind'
  rw [added]
  split
  case isTrue heq =>
    subst heq
    cases kind' with
    | PRIMARY_KEY => exact absurd rfl hkind
    | UNIQUE_KEY =>
      refine List.map_append.trans (congrArg _ ?_)
      exact congrArg (fun ids => [(ids, name)]) hnew
    | INDEX =>
      refine List.map_append.trans (congrArg _ ?_)
      exact congrArg (fun ids => [(ids, name)]) hnew
  case isFalse hne => cases kind <;> cases kind' <;> first | rfl | exact absurd rfl hne

theorem addIndex_iff (hkind : kind ≠ .PRIMARY_KEY) (h : Indexable t k.columnNames) :
    (∃ t', t.addIndex k.name k.columnNames kind = .ok (0, t')) ↔
      CanAdd t.caseSensitive t.keyColumns kind k := by
  constructor
  · rintro ⟨t', hadd⟩
    by_cases haddable : Addable t k.name k.columnNames
    · refine ⟨haddable.nonempty, haddable.count, fun heq => absurd heq hkind, fun _ hne => ?_⟩
      rw [← hasKey_eq]
      exact haddable.free hne
    · obtain ⟨t₁, hrefused, -⟩ := addIndex_refused kind haddable
      cases hrefused.symm.trans hadd
  · rintro ⟨hne, hcount, -, hfree⟩
    obtain ⟨column, columns, hcolumns⟩ := List.exists_cons_of_ne_nil hne
    have haddable : Addable t k.name k.columnNames :=
      ⟨hne, hcount, fun hname => (hasKey_eq t k.name).trans (hfree hkind hname), h⟩
    rw [hcolumns] at haddable ⊢
    obtain ⟨ids, key, name, t', -, -, -, -, hadd⟩ := addIndex_ok hkind haddable
    exact ⟨_, hadd⟩

theorem addIndex_spec (hkind : kind ≠ .PRIMARY_KEY) (hids : t.columnIds k.columnNames = some ids)
    (hadd : t.addIndex k.name k.columnNames kind = .ok (0, t')) :
    SameTable t t' ∧ t'.keyColumns =
      added t.keyColumns kind (ids, newName t.caseSensitive t.keyColumns k) := by
  by_cases haddable : Addable t k.name k.columnNames
  swap
  · obtain ⟨t₁, hrefused, -⟩ := addIndex_refused kind haddable
    cases hrefused.symm.trans hadd
  obtain ⟨column, columns, hcolumns⟩ := List.exists_cons_of_ne_nil haddable.nonempty
  have hname := indexNameOf_eq t k
  rw [hcolumns] at haddable hids hadd hname
  obtain ⟨ids', key, name, t₁, hids', hkey, hname', hmarked, hadd'⟩ := addIndex_ok hkind haddable
  cases hids'.symm.trans hids
  cases hname'.symm.trans hname
  cases hadd'.symm.trans hadd
  obtain ⟨types, htypes, rfl⟩ := Option.map_eq_some_iff.mp ((createUnionKey_eq ..).symm.trans hkey)
  refine ⟨?_, keyColumns_setKeyArray hkind hmarked (keyOn_inside _ kind htypes).1 _⟩
  have hsame := hmarked.sameTable
  cases kind <;> exact ⟨hsame.columns, hsame.caseSensitive, hsame.dbName, hsame.tableName, hsame.charset⟩

/-- When the columns can be the primary key. -/
theorem createPrimaryKey_iff {columns : List String} (h : Indexable t columns) :
    (∃ t', t.createPrimaryKey columns = .ok (0, t')) ↔
      columns ≠ [] ∧ columns.length < 256 ∧ t.m_primaryKey = none := by
  obtain ⟨ids, types, hids, htypes⟩ := h
  unfold TableMeta.createPrimaryKey
  by_cases hcount : 256 ≤ columns.length ∨ columns = []
  · rw [if_pos hcount]
    refine iff_of_false ?_ fun h => ?_
    · rintro ⟨t', hret⟩
      cases hret
    · rcases hcount with hcount | hnil
      · exact absurd h.2.1 (by omega)
      · exact h.1 hnil
  rw [if_neg hcount]
  obtain ⟨hcount, hne⟩ := not_or.mp hcount
  cases hprimary : t.m_primaryKey with
  | some key =>
    refine iff_of_false ?_ fun h => by cases h.2.2
    rintro ⟨t', hret⟩
    cases hret
  | none =>
    refine iff_of_true ?_ ⟨hne, by omega, rfl⟩
    have hinside : ∀ id ∈ ids, id < t.columnsCount := by
      obtain ⟨hcolumns, hinfo⟩ := keyOn_inside 0 .PRIMARY_KEY htypes
      intro id hid
      rw [← hcolumns] at hid
      obtain ⟨c, hc, rfl⟩ := List.mem_map.mp hid
      obtain ⟨type, htype, -⟩ := Option.map_eq_some_iff.mp (hinfo c hc)
      have hlt := (List.getElem?_eq_some_iff.mp htype).1
      rwa [TableMeta.types, List.length_map, ← TableMeta.columnsCount] at hlt
    have hkey := createUnionKey_eq t 0 .PRIMARY_KEY ids
    rw [htypes, Option.map_some] at hkey
    obtain ⟨t', hloop, -⟩ := foldlM_ok
      (f := fun t id => t.modifyAt id fun c => { c with m_isPrimary := true })
      (t := { t with m_primaryKey := some (keyOn 0 .PRIMARY_KEY types ids) })
      (fun t id hid => ⟨_, modifyAt_ok hid _, remarked_modify t (marks_isPrimary true) _⟩) hinside
    refine ⟨t', ?_⟩
    rw [TableMeta.columnIds] at hids
    rw [hids]
    dsimp only
    rw [hkey]
    dsimp only
    rw [hloop]
    rfl

theorem createPrimaryKey_marks {columns : List String} (hids : t.columnIds columns = some ids)
    (hcreate : t.createPrimaryKey columns = .ok (0, t')) : ∃ key : UnionKeyMeta,
      key.columnInfo.map UniqueKeyTypePair.columnId = ids ∧ t.m_primaryKey = none ∧
      ids.foldlM (fun t id => t.modifyAt id fun c => { c with m_isPrimary := true })
        { t with m_primaryKey := some key } = .ok t' := by
  unfold TableMeta.createPrimaryKey at hcreate
  rw [TableMeta.columnIds] at hids
  rw [hids] at hcreate
  split at hcreate
  · cases hcreate
  split at hcreate
  · cases hcreate
  case isFalse hprimary =>
    dsimp only at hcreate
    rw [createUnionKey_eq] at hcreate
    cases htypes : keyTypes t.types ids with
    | none =>
      rw [htypes] at hcreate
      cases hcreate
    | some types =>
      rw [htypes, Option.map_some] at hcreate
      obtain ⟨t₁, hloop, hret⟩ := Exec.of_bind hcreate
      cases hret
      exact ⟨_, (keyOn_inside 0 .PRIMARY_KEY htypes).1, by simpa using hprimary, hloop⟩

theorem createPrimaryKey_spec {columns : List String} (hids : t.columnIds columns = some ids)
    (hcreate : t.createPrimaryKey columns = .ok (0, t')) :
    SameTable t t' ∧ t'.keyColumns = added t.keyColumns .PRIMARY_KEY (ids, "") := by
  obtain ⟨key, hkey, hnone, hloop⟩ := createPrimaryKey_marks hids hcreate
  have hmarked := foldlM_remarked (fun t id t' h => modifyAt_remarked (marks_isPrimary true) h) hloop
  obtain ⟨hcolumns, hcase, hdb, htable, hcharset⟩ := hmarked.sameTable
  refine ⟨⟨hcolumns, hcase, hdb, htable, hcharset⟩, ?_⟩
  obtain ⟨columns', rfl, -⟩ := hmarked
  funext kind
  cases kind with
  | PRIMARY_KEY =>
    show [(List.flatMap _ [_], "")] = t.keyColumns .PRIMARY_KEY ++ [(ids, "")]
    rw [TableMeta.keyColumns, TableMeta.keys, hnone]
    exact congrArg (fun ids => [(ids, "")]) ((List.append_nil _).trans hkey)
  | UNIQUE_KEY => rfl
  | INDEX => rfl

private theorem addKey_iff (kind : KeyType) (h : Indexable t k.columnNames) :
    (∃ t', t.addKey kind k = .ok (0, t')) ↔ CanAdd t.caseSensitive t.keyColumns kind k := by
  by_cases hkind : kind = .PRIMARY_KEY
  · subst hkind
    rw [TableMeta.addKey, if_pos rfl, createPrimaryKey_iff h, CanAdd]
    have hprimary : t.keyColumns .PRIMARY_KEY = [] ↔ t.m_primaryKey = none := by
      rw [TableMeta.keyColumns, TableMeta.keys]
      cases t.m_primaryKey <;> simp
    rw [hprimary]
    simp
  · rw [TableMeta.addKey, if_neg hkind, addIndex_iff hkind h]

private theorem addKey_spec (hids : t.columnIds k.columnNames = some ids)
    (hadd : t.addKey kind k = .ok (0, t')) :
    SameTable t t' ∧ t'.keyColumns =
      added t.keyColumns kind (ids, nameOf t.caseSensitive t.keyColumns kind k) := by
  by_cases hkind : kind = .PRIMARY_KEY
  · subst hkind
    exact createPrimaryKey_spec hids hadd
  · rw [TableMeta.addKey, if_neg hkind] at hadd
    rw [nameOf, if_neg hkind]
    exact addIndex_spec hkind hids hadd

/-! ## Keys in turn -/

theorem unlessFailed_ok {x : Exec (Int × TableMeta)} {next : TableMeta → Exec (Int × TableMeta)} :
    TableMeta.unlessFailed x next = .ok (0, t') ↔ ∃ t, x = .ok (0, t) ∧ next t = .ok (0, t') := by
  unfold TableMeta.unlessFailed
  rw [Exec.bind_eq_ok]
  constructor
  · rintro ⟨⟨r, t⟩, hx, hnext⟩
    dsimp only at hnext
    split at hnext
    case isTrue => cases hnext
    case isFalse hr =>
      cases not_not.mp hr
      exact ⟨t, hx, hnext⟩
  · rintro ⟨t, hx, hnext⟩
    exact ⟨(0, t), hx, hnext⟩

/-- The calls that make some keys, until one fails. -/
def runKeys : TableMeta → List (KeyType × AddKey) → Exec (Int × TableMeta)
  | t, [] => .ok (0, t)
  | t, (kind, k) :: rest => TableMeta.unlessFailed (t.addKey kind k) fun t => runKeys t rest

/-- The keys after a key was made. -/
def afterKey (t₀ : TableMeta) (ks : KeyType → List (List Nat × String)) (p : KeyType × AddKey) :
    KeyType → List (List Nat × String) :=
  added ks p.1 ((t₀.columnIds p.2.columnNames).getD [], nameOf t₀.caseSensitive ks p.1 p.2)

/-- Each of some keys can be made beside those before it. -/
def CanAddAll (t₀ : TableMeta) : (KeyType → List (List Nat × String)) → List (KeyType × AddKey) → Prop
  | _, [] => True
  | ks, p :: rest => CanAdd t₀.caseSensitive ks p.1 p.2 ∧ CanAddAll t₀ (afterKey t₀ ks p) rest

variable {l l₁ l₂ : List (KeyType × AddKey)}

theorem canAddAll_append : CanAddAll t₀ ks (l₁ ++ l₂) ↔
    CanAddAll t₀ ks l₁ ∧ CanAddAll t₀ (l₁.foldl (afterKey t₀) ks) l₂ := by
  induction l₁ generalizing ks with
  | nil => exact ⟨fun h => ⟨trivial, h⟩, And.right⟩
  | cons p l₁ ih =>
    rw [List.cons_append, CanAddAll, CanAddAll, ih, and_assoc]
    rfl

theorem runKeys_append : runKeys t (l₁ ++ l₂) = .ok (0, t') ↔
    ∃ t₁, runKeys t l₁ = .ok (0, t₁) ∧ runKeys t₁ l₂ = .ok (0, t') := by
  induction l₁ generalizing t with
  | nil =>
    constructor
    · intro h
      exact ⟨t, rfl, h⟩
    · rintro ⟨t₁, hnil, h⟩
      cases hnil
      exact h
  | cons p l₁ ih =>
    rw [List.cons_append, runKeys, runKeys, unlessFailed_ok]
    simp only [unlessFailed_ok, ih]
    constructor
    · rintro ⟨t₁, hp, t₂, h₁, h₂⟩
      exact ⟨t₂, ⟨t₁, hp, h₁⟩, h₂⟩
    · rintro ⟨t₂, ⟨t₁, hp, h₁⟩, h₂⟩
      exact ⟨t₁, hp, t₂, h₁, h₂⟩

theorem addKey_after (hsame : SameTable t₀ t) {p : KeyType × AddKey}
    (hindexable : Indexable t₀ p.2.columnNames) (hadd : t.addKey p.1 p.2 = .ok (0, t')) :
    SameTable t₀ t' ∧ t'.keyColumns = afterKey t₀ t.keyColumns p := by
  obtain ⟨ids, -, hids, -⟩ := hindexable
  obtain ⟨hsame', hkeys⟩ := addKey_spec ((hsame.columnIds _).trans hids) hadd
  rw [afterKey, hids, ← hsame.caseSensitive]
  exact ⟨hsame.trans hsame', hkeys⟩

theorem runKeys_iff (hsame : SameTable t₀ t) (hl : ∀ p ∈ l, Indexable t₀ p.2.columnNames) :
    (∃ t', runKeys t l = .ok (0, t')) ↔ CanAddAll t₀ t.keyColumns l := by
  induction l generalizing t with
  | nil => exact iff_of_true ⟨t, rfl⟩ trivial
  | cons p l ih =>
    obtain ⟨hp, hl⟩ := List.forall_mem_cons.mp hl
    have hadd := addKey_iff p.1 (hsame.indexable.mpr hp)
    rw [CanAddAll, ← hsame.caseSensitive, ← hadd, runKeys]
    simp only [unlessFailed_ok]
    constructor
    · rintro ⟨t', t₁, hp', hrest⟩
      obtain ⟨hsame', hkeys⟩ := addKey_after hsame hp hp'
      exact ⟨⟨t₁, hp'⟩, hkeys ▸ (ih hsame' hl).mp ⟨t', hrest⟩⟩
    · rintro ⟨⟨t₁, hp'⟩, hrest⟩
      obtain ⟨hsame', hkeys⟩ := addKey_after hsame hp hp'
      obtain ⟨t', h⟩ := (ih hsame' hl).mpr (hkeys ▸ hrest)
      exact ⟨t', t₁, hp', h⟩

theorem runKeys_spec (hsame : SameTable t₀ t) (hl : ∀ p ∈ l, Indexable t₀ p.2.columnNames)
    (hrun : runKeys t l = .ok (0, t')) :
    SameTable t₀ t' ∧ t'.keyColumns = l.foldl (afterKey t₀) t.keyColumns := by
  induction l generalizing t with
  | nil =>
    cases hrun
    exact ⟨hsame, rfl⟩
  | cons p l ih =>
    obtain ⟨hp, hl⟩ := List.forall_mem_cons.mp hl
    obtain ⟨t₁, hadd, hrest⟩ := unlessFailed_ok.mp hrun
    obtain ⟨hsame', hkeys⟩ := addKey_after hsame hp hadd
    rw [List.foldl_cons, ← hkeys]
    exact ih hsame' hl hrest

/-! ## The keys of one column -/

/-- The columns of a statement have different names, and are numbered. -/
structure WellNamed (t₀ : TableMeta) : Prop where
  numbered : Numbered t₀.m_columns
  distinct : (t₀.m_columns.map fun c => nameKey t₀.caseSensitive c.m_columnName).Nodup
  named : ∀ c ∈ t₀.m_columns, c.m_columnName ≠ ""

def columnKey (c : ColumnMeta) : AddKey := ⟨c.m_columnName, [c.m_columnName]⟩

/-- The keys that the loop makes for a column.  A unique key marks the column as one of an index. -/
def columnClauses (c : ColumnMeta) : List (KeyType × AddKey) :=
  (if c.m_isPrimary then [(.PRIMARY_KEY, columnKey c)] else []) ++
    (if c.m_isUnique then [(.UNIQUE_KEY, columnKey c)] else []) ++
    if c.m_isUnique || c.m_isIndex then [(.INDEX, columnKey c)] else []

variable {c : ColumnMeta} {i : Nat} {rest : List ColumnMeta} {u x : Bool}

theorem findIdx_column (hsame : SameTable t₀ t) (hnamed : WellNamed t₀) (hc : t₀.m_columns[i]? = some c) :
    (t.m_columns.findIdx? fun c' => nameEq t.caseSensitive c'.m_columnName c.m_columnName) = some i := by
  have hnames : t.m_columns.map ColumnMeta.m_columnName = t₀.m_columns.map ColumnMeta.m_columnName :=
    hsame.map_eq fun _ => rfl
  have hmap (l : List ColumnMeta) : (l.findIdx? fun c' => nameEq t.caseSensitive c'.m_columnName c.m_columnName) =
      (l.map ColumnMeta.m_columnName).findIdx? fun n => nameEq t.caseSensitive n c.m_columnName := by
    rw [List.findIdx?_map]
    rfl
  rw [hmap, hnames, ← hmap, hsame.caseSensitive]
  obtain ⟨hlt, rfl⟩ := List.getElem?_eq_some_iff.mp hc
  refine List.findIdx?_eq_some_iff_getElem.mpr ⟨hlt, nameEq_iff.mpr rfl, fun j hj hsame' => ?_⟩
  have hkeys := nameEq_iff.mp hsame'
  have hinj := (List.nodup_iff_injective_get.mp hnamed.distinct)
  have heq := @hinj ⟨j, by rw [List.length_map]; omega⟩ ⟨i, by rw [List.length_map]; omega⟩ (by
    simpa using hkeys)
  exact absurd (Fin.val_eq_of_eq heq) (by simp; omega)

theorem column_of_same (hsame : SameTable t₀ t) (hnamed : WellNamed t₀) (hc : t₀.m_columns[i]? = some c) :
    ∃ c', t.m_columns[i]? = some c' ∧ c'.m_columnIndex = i ∧ c'.m_columnName = c.m_columnName := by
  have hnumbers : (t.m_columns.map fun c => (c.m_columnIndex, c.m_columnName)) =
      t₀.m_columns.map fun c => (c.m_columnIndex, c.m_columnName) := hsame.map_eq fun _ => rfl
  have hi := congrArg (fun l : List (Nat × String) => l[i]?) hnumbers
  simp only [List.getElem?_map, hc, Option.map_some] at hi
  obtain ⟨c', hc', heq⟩ := Option.map_eq_some_iff.mp hi
  exact ⟨c', hc', (congrArg Prod.fst heq).trans (hnamed.numbered i c hc), congrArg Prod.snd heq⟩

private theorem columnIds_column (hsame : SameTable t₀ t) (hnamed : WellNamed t₀)
    (hc : t₀.m_columns[i]? = some c) : t.columnIds [c.m_columnName] = some [i] := by
  obtain ⟨c', hc', hindex, -⟩ := column_of_same hsame hnamed hc
  rw [TableMeta.columnIds, List.mapM_cons, TableMeta.getColumn, List.find?_eq_bind_findIdx?_getElem?,
    findIdx_column hsame hnamed hc, Option.bind_some, hc', Option.map_some, hindex]
  rfl

theorem foldlM_modifyAt (h : [i].foldlM (fun t id => TableMeta.modifyAt t id mark) t = .ok t') :
    t' = { t with m_columns := t.m_columns.modify i mark } := by
  obtain ⟨t₁, hmodify, hret⟩ := Exec.of_bind h
  cases hret
  exact modifyAt_eq hmodify

theorem markColumns_column (hsame : SameTable t₀ t) (hnamed : WellNamed t₀)
    (hc : t₀.m_columns[i]? = some c) : TableMeta.markColumns mark t [c.m_columnName] =
      .ok (some [i], { t with m_columns := t.m_columns.modify i mark }) := by
  obtain ⟨c', hc', hindex, -⟩ := column_of_same hsame hnamed hc
  rw [TableMeta.markColumns, findIdx_column hsame hnamed hc]
  dsimp only
  rw [tableAt_of_getElem? hc', Exec.ok_bind, ← hindex]
  rfl

theorem addKey_column (hsame : SameTable t₀ t) (hnamed : WellNamed t₀) (hc : t₀.m_columns[i]? = some c)
    (hadd : t.addKey kind (columnKey c) = .ok (0, t')) : ∃ f : ColumnMeta → ColumnMeta,
      t'.m_columns = t.m_columns.modify i f ∧
        ∀ c', (f c').m_isUnique = (c'.m_isUnique || decide (kind = .UNIQUE_KEY)) ∧
          (f c').m_isIndex = (c'.m_isIndex || decide (kind ≠ .PRIMARY_KEY)) := by
  have hids := columnIds_column hsame hnamed hc
  unfold TableMeta.addKey columnKey at hadd
  split at hadd
  case isTrue hkind =>
    subst hkind
    obtain ⟨key, -, -, hloop⟩ := createPrimaryKey_marks hids hadd
    exact ⟨_, congrArg TableMeta.m_columns (foldlM_modifyAt hloop), fun c' =>
      ⟨(Bool.or_false _).symm, (Bool.or_false _).symm⟩⟩
  case isFalse hkind =>
    by_cases haddable : Addable t c.m_columnName [c.m_columnName]
    swap
    · obtain ⟨t₁, hrefused, -⟩ := addIndex_refused kind haddable
      cases hrefused.symm.trans hadd
    obtain ⟨ids', key, name, t₁, t₂, hids', -, -, hmark, hloop, -, hadd'⟩ := addIndex_marks hkind haddable
    cases hids.symm.trans hids'
    cases hmark.symm.trans (markColumns_column hsame hnamed hc)
    cases foldlM_modifyAt hloop
    cases hadd'.symm.trans hadd
    refine ⟨(fun c => { c with m_isIndex := true }) ∘ fun c =>
      if kind = .UNIQUE_KEY then { c with m_isUnique := true } else { c with m_isIndex := true }, ?_,
      fun c' => ?_⟩
    · rw [← List.modify_modify_eq]
      cases kind <;> rfl
    · rw [decide_eq_true hkind, Bool.or_true]
      by_cases hunique : kind = .UNIQUE_KEY <;> simp [hunique]

/-! ## The loop over the columns -/

/-- A column that takes the charset of its table finds one where it has a size to multiply. -/
def Fillable (charset : Option CharsetInfo) (c : ColumnMeta) : Prop :=
  c.m_columnType.info.stringType = true → c.m_charset = none → c.m_size ≠ 0 → charset.isSome

theorem withCharset_iff : (∃ c', t.withCharset c = .ok c') ↔ Fillable t.m_charset c := by
  unfold TableMeta.withCharset Fillable
  by_cases hfill : c.m_columnType.info.stringType = true ∧ c.m_charset = none
  · rw [if_pos hfill]
    by_cases hsize : 0 < c.m_size
    · rw [if_pos hsize]
      cases t.m_charset with
      | none =>
        refine iff_of_false ?_ fun h => by cases h hfill.1 hfill.2 (by omega)
        rintro ⟨c', h⟩
        cases h
      | some charset => exact iff_of_true ⟨_, rfl⟩ fun _ _ _ => rfl
    · rw [if_neg hsize]
      exact iff_of_true ⟨_, rfl⟩ fun _ _ hne => absurd (by omega) hne
  · rw [if_neg hfill]
    exact iff_of_true ⟨c, rfl⟩ fun h₁ h₂ => absurd ⟨h₁, h₂⟩ hfill

theorem withCharset_plain {c' : ColumnMeta} (h : t.withCharset c = .ok c') :
    plain c' = plain c ∧ c'.m_isPrimary = c.m_isPrimary ∧ c'.m_isUnique = c.m_isUnique ∧
      c'.m_isIndex = c.m_isIndex := by
  unfold TableMeta.withCharset at h
  split at h
  · split at h
    · obtain ⟨charset, -, h⟩ := Exec.of_bind h
      cases h
      exact ⟨rfl, rfl, rfl, rfl⟩
    · cases h
      exact ⟨rfl, rfl, rfl, rfl⟩
  · cases h
    exact ⟨rfl, rfl, rfl, rfl⟩

theorem sameTable_set {c' : ColumnMeta} (hc : t.m_columns[i]? = some c) (hplain : plain c' = plain c) :
    SameTable t { t with m_columns := t.m_columns.set i c' } := by
  refine ⟨?_, rfl, rfl, rfl, rfl⟩
  obtain ⟨hlt, rfl⟩ := List.getElem?_eq_some_iff.mp hc
  rw [List.map_set, hplain, ← List.getElem_map plain (h := by rwa [List.length_map]), List.set_getElem_self]

/-- The table in a turn for column `i`, with two of the flags of the column, and the columns to come. -/
structure InColumn (t₀ t : TableMeta) (i : Nat) (u x : Bool) (rest : List ColumnMeta) : Prop where
  same : SameTable t₀ t
  column : ∃ c, t.m_columns[i]? = some c ∧ c.m_isUnique = u ∧ c.m_isIndex = x
  rest : t.m_columns.drop (i + 1) = rest

variable {flag : ColumnMeta → Bool} {b : Bool}

theorem addColumnKey_eq (hsame : SameTable t₀ t) (hnamed : WellNamed t₀) (hc : t₀.m_columns[i]? = some c)
    (hflag : ∀ c', t.m_columns[i]? = some c' → flag c' = b) :
    t.addColumnKey i flag kind = .ok (0, t') ↔
      runKeys t (if b then [(kind, columnKey c)] else []) = .ok (0, t') := by
  obtain ⟨c', hc', -, hname⟩ := column_of_same hsame hnamed hc
  rw [TableMeta.addColumnKey, tableAt_of_getElem? hc', Exec.ok_bind, hflag c' hc', hname]
  cases b with
  | false => exact Iff.rfl
  | true =>
    rw [if_pos rfl, if_pos rfl, runKeys, unlessFailed_ok]
    constructor
    · intro hadd
      exact ⟨t', hadd, rfl⟩
    · rintro ⟨t₁, hadd, hret⟩
      cases hret
      exact hadd

theorem InColumn.step (h : InColumn t₀ t i u x rest) (hnamed : WellNamed t₀)
    (hc : t₀.m_columns[i]? = some c) (hindexable : b → Indexable t₀ [c.m_columnName])
    (hrun : runKeys t (if b then [(kind, columnKey c)] else []) = .ok (0, t')) :
    InColumn t₀ t' i (u || (b && decide (kind = .UNIQUE_KEY)))
      (x || (b && decide (kind ≠ .PRIMARY_KEY))) rest := by
  cases b with
  | false =>
    cases hrun
    simpa using h
  | true =>
    obtain ⟨t₁, hadd, hret⟩ := unlessFailed_ok.mp hrun
    cases hret
    have hsame' := (addKey_after (p := (kind, columnKey c)) h.same (hindexable rfl) hadd).1
    obtain ⟨f, hcolumns, hf⟩ := addKey_column h.same hnamed hc hadd
    obtain ⟨c', hc', rfl, rfl⟩ := h.column
    refine ⟨hsame', ⟨f c', ?_, ?_, ?_⟩, ?_⟩
    · rw [hcolumns, List.getElem?_modify_eq, hc']
      rfl
    · rw [(hf c').1, Bool.true_and]
    · rw [(hf c').2, Bool.true_and]
    · rw [hcolumns, List.drop_modify_of_lt _ _ _ _ (by omega)]
      exact h.rest

theorem fillCharset_spec (hsame : SameTable t₀ t) (hdrop : t.m_columns.drop i = c :: rest) :
    ((∃ t', t.fillCharset i = .ok t') ↔ Fillable t₀.m_charset c) ∧
      ∀ t', t.fillCharset i = .ok t' → InColumn t₀ t' i c.m_isUnique c.m_isIndex rest ∧
        t'.keyColumns = t.keyColumns ∧
        ∀ c', t'.m_columns[i]? = some c' → c'.m_isPrimary = c.m_isPrimary := by
  have hc : t.m_columns[i]? = some c := by
    rw [← List.head?_drop, hdrop]
    rfl
  rw [← hsame.charset, ← withCharset_iff, TableMeta.fillCharset, tableAt_of_getElem? hc, Exec.ok_bind]
  refine ⟨⟨?_, ?_⟩, ?_⟩
  · rintro ⟨t', h⟩
    obtain ⟨c', hfill, -⟩ := Exec.of_bind h
    exact ⟨c', hfill⟩
  · rintro ⟨c', hfill⟩
    exact ⟨_, by rw [hfill]; rfl⟩
  · intro t' h
    obtain ⟨c', hfill, hret⟩ := Exec.of_bind h
    cases hret
    obtain ⟨hplain, hprimary, hunique, hindex⟩ := withCharset_plain hfill
    have hget : (t.m_columns.set i c')[i]? = some c' :=
      List.getElem?_set_self (List.getElem?_eq_some_iff.mp hc).1
    refine ⟨⟨hsame.trans (sameTable_set hc hplain), ⟨c', hget, hunique, hindex⟩, ?_⟩, rfl, fun c'' hc'' => ?_⟩
    · show (t.m_columns.set i c').drop (i + 1) = rest
      rw [List.drop_set_of_lt (by omega), ← List.tail_drop, hdrop]
      rfl
    · cases hget.symm.trans hc''
      exact hprimary

theorem fillCharsetAgain_spec (h : InColumn t₀ t i u x rest) : ∃ t',
    t.fillCharsetAgain i = .ok (0, t') ∧ SameTable t₀ t' ∧ t'.keyColumns = t.keyColumns ∧
      t'.m_columns.drop (i + 1) = rest := by
  obtain ⟨c, hc, -⟩ := h.column
  rw [TableMeta.fillCharsetAgain, tableAt_of_getElem? hc, Exec.ok_bind]
  split
  · refine ⟨_, rfl, h.same.trans (sameTable_set hc rfl), rfl, ?_⟩
    rw [List.drop_set_of_lt (by omega)]
    exact h.rest
  · exact ⟨t, rfl, h.same, rfl, h.rest⟩

/-- The keys of a column are columns that may be in a key. -/
def ColumnIndexable (t₀ : TableMeta) (c : ColumnMeta) : Prop :=
  c.m_isPrimary ∨ c.m_isUnique ∨ c.m_isIndex → Indexable t₀ [c.m_columnName]

theorem ColumnIndexable.clauses (h : ColumnIndexable t₀ c) :
    ∀ p ∈ columnClauses c, Indexable t₀ p.2.columnNames := by
  intro p hp
  unfold columnClauses at hp
  simp only [List.mem_append] at hp
  rcases hp with (hp | hp) | hp
  · split at hp
    case isTrue hflag =>
      rw [List.mem_singleton.mp hp]
      exact h (.inl hflag)
    case isFalse => cases hp
  · split at hp
    case isTrue hflag =>
      rw [List.mem_singleton.mp hp]
      exact h (.inr (.inl hflag))
    case isFalse => cases hp
  · split at hp
    case isTrue hflag =>
      rw [List.mem_singleton.mp hp]
      exact h (.inr (Bool.or_eq_true_iff.mp hflag))
    case isFalse => cases hp

theorem InColumn.unique (h : InColumn t₀ t i u x rest) :
    ∀ c', t.m_columns[i]? = some c' → c'.m_isUnique = u := by
  obtain ⟨c, hc, rfl, -⟩ := h.column
  intro c' hc'
  cases hc.symm.trans hc'
  rfl

theorem InColumn.index (h : InColumn t₀ t i u x rest) :
    ∀ c', t.m_columns[i]? = some c' → c'.m_isIndex = x := by
  obtain ⟨c, hc, -, rfl⟩ := h.column
  intro c' hc'
  cases hc.symm.trans hc'
  rfl

theorem columnTurn_ok (hsame : SameTable t₀ t) (hnamed : WellNamed t₀) (hc : t₀.m_columns[i]? = some c)
    (hindexable : ColumnIndexable t₀ c) (hdrop : t.m_columns.drop i = c :: rest) :
    t.columnTurn i = .ok (0, t') ↔ ∃ t₁ t₂, t.fillCharset i = .ok t₁ ∧
      runKeys t₁ (columnClauses c) = .ok (0, t₂) ∧ t₂.fillCharsetAgain i = .ok (0, t') := by
  rw [TableMeta.columnTurn, Exec.bind_eq_ok]
  refine exists_congr fun t₁ => ?_
  simp only [unlessFailed_ok]
  -- the flags that the second and the third key are made for
  have hprimary (hfill : t.fillCharset i = .ok t₁) (t₂ : TableMeta) :
      t₁.addColumnKey i ColumnMeta.m_isPrimary .PRIMARY_KEY = .ok (0, t₂) ↔
        runKeys t₁ (if c.m_isPrimary then [(.PRIMARY_KEY, columnKey c)] else []) = .ok (0, t₂) := by
    obtain ⟨hat, -, hprimary⟩ := (fillCharset_spec hsame hdrop).2 t₁ hfill
    exact addColumnKey_eq hat.same hnamed hc hprimary
  have hat₂ (hfill : t.fillCharset i = .ok t₁) {t₂ : TableMeta}
      (hpk : runKeys t₁ (if c.m_isPrimary then [(.PRIMARY_KEY, columnKey c)] else []) = .ok (0, t₂)) :
      InColumn t₀ t₂ i c.m_isUnique c.m_isIndex rest := by
    obtain ⟨hat, -, -⟩ := (fillCharset_spec hsame hdrop).2 t₁ hfill
    simpa using hat.step hnamed hc (fun hb => hindexable (.inl hb)) hpk
  have hat₃ {t₂ t₃ : TableMeta} (hat : InColumn t₀ t₂ i c.m_isUnique c.m_isIndex rest)
      (huk : runKeys t₂ (if c.m_isUnique then [(.UNIQUE_KEY, columnKey c)] else []) = .ok (0, t₃)) :
      InColumn t₀ t₃ i c.m_isUnique (c.m_isUnique || c.m_isIndex) rest := by
    simpa [Bool.or_comm] using hat.step hnamed hc (fun hb => hindexable (.inr (.inl hb))) huk
  constructor
  · rintro ⟨hfill, t₂, hpk, t₃, huk, t₄, hindex, hlast⟩
    rw [hprimary hfill] at hpk
    have hat := hat₂ hfill hpk
    rw [addColumnKey_eq hat.same hnamed hc hat.unique] at huk
    have hat' := hat₃ hat huk
    rw [addColumnKey_eq hat'.same hnamed hc hat'.index] at hindex
    exact ⟨t₄, hfill, runKeys_append.mpr ⟨t₃, runKeys_append.mpr ⟨t₂, hpk, huk⟩, hindex⟩, hlast⟩
  · rintro ⟨t₄, hfill, hkeys, hlast⟩
    obtain ⟨t₃, hkeys, hindex⟩ := runKeys_append.mp hkeys
    obtain ⟨t₂, hpk, huk⟩ := runKeys_append.mp hkeys
    have hat := hat₂ hfill hpk
    have hat' := hat₃ hat huk
    exact ⟨hfill, t₂, (hprimary hfill t₂).mpr hpk, t₃, (addColumnKey_eq hat.same hnamed hc hat.unique).mpr huk,
      t₄, (addColumnKey_eq hat'.same hnamed hc hat'.index).mpr hindex, hlast⟩

theorem InColumn.clauses (h : InColumn t₀ t i u x rest) (hnamed : WellNamed t₀)
    (hc : t₀.m_columns[i]? = some c) (hindexable : ColumnIndexable t₀ c)
    (hrun : runKeys t (columnClauses c) = .ok (0, t')) : ∃ u x, InColumn t₀ t' i u x rest := by
  obtain ⟨t₂, hrun, hindex⟩ := runKeys_append.mp hrun
  obtain ⟨t₁, hpk, huk⟩ := runKeys_append.mp hrun
  have h₁ := h.step hnamed hc (fun hb => hindexable (.inl hb)) hpk
  have h₂ := h₁.step hnamed hc (fun hb => hindexable (.inr (.inl hb))) huk
  exact ⟨_, _, h₂.step hnamed hc (fun hb => hindexable (.inr (Bool.or_eq_true_iff.mp hb))) hindex⟩

theorem columnTurn_iff (hsame : SameTable t₀ t) (hnamed : WellNamed t₀) (hc : t₀.m_columns[i]? = some c)
    (hindexable : ColumnIndexable t₀ c) (hdrop : t.m_columns.drop i = c :: rest) :
    ((∃ t', t.columnTurn i = .ok (0, t')) ↔
      Fillable t₀.m_charset c ∧ CanAddAll t₀ t.keyColumns (columnClauses c)) ∧
    ∀ t', t.columnTurn i = .ok (0, t') → SameTable t₀ t' ∧
      t'.keyColumns = (columnClauses c).foldl (afterKey t₀) t.keyColumns ∧
      t'.m_columns.drop (i + 1) = rest := by
  obtain ⟨hfillable, hfilled⟩ := fillCharset_spec hsame hdrop
  have hclauses := hindexable.clauses
  simp only [columnTurn_ok hsame hnamed hc hindexable hdrop]
  refine ⟨⟨?_, ?_⟩, ?_⟩
  · rintro ⟨t', t₁, t₂, hfill, hkeys, -⟩
    obtain ⟨hat, hsameKeys, -⟩ := hfilled t₁ hfill
    have hcan := (runKeys_iff hat.same hclauses).mp ⟨t₂, hkeys⟩
    rw [hsameKeys] at hcan
    exact ⟨hfillable.mp ⟨t₁, hfill⟩, hcan⟩
  · rintro ⟨hc', hcan⟩
    obtain ⟨t₁, hfill⟩ := hfillable.mpr hc'
    obtain ⟨hat, hsameKeys, -⟩ := hfilled t₁ hfill
    rw [← hsameKeys] at hcan
    obtain ⟨t₂, hkeys⟩ := (runKeys_iff hat.same hclauses).mpr hcan
    obtain ⟨u, x, hat'⟩ := hat.clauses hnamed hc hindexable hkeys
    obtain ⟨t', hlast, -⟩ := fillCharsetAgain_spec hat'
    exact ⟨t', t₁, t₂, hfill, hkeys, hlast⟩
  · rintro t' ⟨t₁, t₂, hfill, hkeys, hlast⟩
    obtain ⟨hat, hsameKeys, -⟩ := hfilled t₁ hfill
    obtain ⟨-, hafter⟩ := runKeys_spec hat.same hclauses hkeys
    obtain ⟨u, x, hat'⟩ := hat.clauses hnamed hc hindexable hkeys
    obtain ⟨t'', hlast', hsame', hkeys', hrest⟩ := fillCharsetAgain_spec hat'
    cases hlast'.symm.trans hlast
    exact ⟨hsame', by rw [hkeys', hafter, hsameKeys], hrest⟩

/-- When the loop over the columns goes through, and which keys it leaves. -/
theorem columnLoop_iff {columns : List ColumnMeta} (hsame : SameTable t₀ t) (hnamed : WellNamed t₀)
    (hcolumns : t₀.m_columns.drop i = columns) (hindexable : ∀ c ∈ columns, ColumnIndexable t₀ c)
    (hdrop : t.m_columns.drop i = columns) :
    ((∃ t', t.columnLoop (List.range' i columns.length) = .ok (0, t')) ↔
      (∀ c ∈ columns, Fillable t₀.m_charset c) ∧
        CanAddAll t₀ t.keyColumns (columns.flatMap columnClauses)) ∧
    ∀ t', t.columnLoop (List.range' i columns.length) = .ok (0, t') → SameTable t₀ t' ∧
      t'.keyColumns = (columns.flatMap columnClauses).foldl (afterKey t₀) t.keyColumns := by
  induction columns generalizing t i with
  | nil =>
    refine ⟨iff_of_true ⟨t, rfl⟩ ⟨fun c hc => absurd hc List.not_mem_nil, trivial⟩, fun t' h => ?_⟩
    cases h
    exact ⟨hsame, rfl⟩
  | cons c columns ih =>
    obtain ⟨hcolumn, hindexable⟩ := List.forall_mem_cons.mp hindexable
    have hc : t₀.m_columns[i]? = some c := by
      rw [← List.head?_drop, hcolumns]
      rfl
    have hcolumns' : t₀.m_columns.drop (i + 1) = columns := by
      rw [← List.tail_drop, hcolumns]
      rfl
    obtain ⟨hturn, hturned⟩ := columnTurn_iff hsame hnamed hc hcolumn hdrop
    rw [List.length_cons, List.range'_succ, TableMeta.columnLoop, List.flatMap_cons, canAddAll_append,
      List.foldl_append, List.forall_mem_cons]
    simp only [unlessFailed_ok]
    refine ⟨⟨?_, ?_⟩, ?_⟩
    · rintro ⟨t', t₁, h₁, hrest⟩
      obtain ⟨hsame', hkeys, hdrop'⟩ := hturned t₁ h₁
      obtain ⟨hfill, hcan⟩ := hturn.mp ⟨t₁, h₁⟩
      obtain ⟨hfills, hcans⟩ := (ih hsame' hcolumns' hindexable hdrop').1.mp ⟨t', hrest⟩
      rw [hkeys] at hcans
      exact ⟨⟨hfill, hfills⟩, hcan, hcans⟩
    · rintro ⟨⟨hfill, hfills⟩, hcan, hcans⟩
      obtain ⟨t₁, h₁⟩ := hturn.mpr ⟨hfill, hcan⟩
      obtain ⟨hsame', hkeys, hdrop'⟩ := hturned t₁ h₁
      rw [← hkeys] at hcans
      obtain ⟨t', hrest⟩ := (ih hsame' hcolumns' hindexable hdrop').1.mpr ⟨hfills, hcans⟩
      exact ⟨t', t₁, h₁, hrest⟩
    · rintro t' ⟨t₁, h₁, hrest⟩
      obtain ⟨hsame', hkeys, hdrop'⟩ := hturned t₁ h₁
      rw [← hkeys]
      exact (ih hsame' hcolumns' hindexable hdrop').2 t' hrest

/-! ## Declared keys -/

/-- A column declares keys by its flags. -/
def columnDeclared (c : ColumnMeta) : List (KeyType × AddKey) :=
  (if c.m_isPrimary then [(.PRIMARY_KEY, columnKey c)] else []) ++
    (if c.m_isUnique then [(.UNIQUE_KEY, columnKey c)] else []) ++
    if c.m_isIndex then [(.INDEX, columnKey c)] else []

namespace CreateTable

variable (d : CreateTable)

def clauses : List (KeyType × AddKey) :=
  (if d.primaryKey.columnNames = [] then [] else [(.PRIMARY_KEY, d.primaryKey)]) ++
    d.uniqueKeys.map (.UNIQUE_KEY, ·) ++ d.indexs.map (.INDEX, ·)

def columnKeys : List (KeyType × AddKey) := d.tableDef.m_columns.flatMap columnDeclared

def declared (kind : KeyType) : List AddKey :=
  ((d.columnKeys ++ d.clauses).filter fun p => p.1 = kind).map Prod.snd

end CreateTable

/-- A key is on the columns that are declared, and has the name if there is one. -/
def Declares (t₀ : TableMeta) (kind : KeyType) (key : List Nat × String) (k : AddKey) : Prop :=
  t₀.columnIds k.columnNames = some key.1 ∧ (kind ≠ .PRIMARY_KEY → k.name ≠ "" → key.2 = k.name)

variable {d : CreateTable}

/-- When the keys of a statement are made, and which ones they are. -/
theorem createKeys_iff (hnamed : WellNamed t₀) (hcolumns : ∀ c ∈ t₀.m_columns, ColumnIndexable t₀ c)
    (hclauses : ∀ p ∈ d.clauses, Indexable t₀ p.2.columnNames) :
    ((∃ t', t₀.createKeys d = .ok (0, t')) ↔ (∀ c ∈ t₀.m_columns, Fillable t₀.m_charset c) ∧
      CanAddAll t₀ t₀.keyColumns (t₀.m_columns.flatMap columnClauses ++ d.clauses)) ∧
    ∀ t', t₀.createKeys d = .ok (0, t') → SameTable t₀ t' ∧ t'.keyColumns =
      (t₀.m_columns.flatMap columnClauses ++ d.clauses).foldl (afterKey t₀) t₀.keyColumns := by
  have haddKeys (t : TableMeta) (kind : KeyType) (hkind : kind ≠ .PRIMARY_KEY) (ks : List AddKey) :
      TableMeta.addKeys kind ks t = runKeys t (ks.map (kind, ·)) := by
    induction ks generalizing t with
    | nil => rfl
    | cons k ks ih =>
      rw [TableMeta.addKeys, List.map_cons, runKeys, TableMeta.addKey, if_neg hkind]
      exact congrArg _ (funext ih)
  have hprimary (t t' : TableMeta) : t.addPrimaryKey d.primaryKey = .ok (0, t') ↔
      runKeys t (if d.primaryKey.columnNames = [] then [] else [(.PRIMARY_KEY, d.primaryKey)]) =
        .ok (0, t') := by
    rw [TableMeta.addPrimaryKey]
    split
    · exact Iff.rfl
    · rw [runKeys, unlessFailed_ok]
      constructor
      · intro hadd
        exact ⟨t', hadd, rfl⟩
      · rintro ⟨t₁, hadd, hret⟩
        cases hret
        exact hadd
  -- primary key, unique keys and indexes in this order are one run over the clauses
  have hrun (t' : TableMeta) : t₀.createKeys d = .ok (0, t') ↔
      ∃ t₁, t₀.columnLoop (List.range' 0 t₀.m_columns.length) = .ok (0, t₁) ∧
        runKeys t₁ d.clauses = .ok (0, t') := by
    rw [TableMeta.createKeys, unlessFailed_ok, CreateTable.clauses, List.range_eq_range']
    simp only [unlessFailed_ok, runKeys_append, hprimary, haddKeys _ .UNIQUE_KEY (by decide),
      haddKeys _ .INDEX (by decide)]
    refine exists_congr fun t₁ => and_congr_right fun _ => ?_
    constructor
    · rintro ⟨t₂, h₁, t₃, h₂, h₃⟩
      exact ⟨t₃, ⟨t₂, h₁, h₂⟩, h₃⟩
    · rintro ⟨t₃, ⟨t₂, h₁, h₂⟩, h₃⟩
      exact ⟨t₂, h₁, t₃, h₂, h₃⟩
  obtain ⟨hloop, hlooped⟩ := columnLoop_iff (.refl t₀) hnamed List.drop_zero hcolumns List.drop_zero
  simp only [hrun, canAddAll_append, List.foldl_append]
  refine ⟨⟨?_, ?_⟩, ?_⟩
  · rintro ⟨t', t₁, h₁, h₂⟩
    obtain ⟨hsame, hkeys⟩ := hlooped t₁ h₁
    obtain ⟨hfill, hcan⟩ := hloop.mp ⟨t₁, h₁⟩
    have hcans := (runKeys_iff hsame hclauses).mp ⟨t', h₂⟩
    rw [hkeys] at hcans
    exact ⟨hfill, hcan, hcans⟩
  · rintro ⟨hfill, hcan, hcans⟩
    obtain ⟨t₁, h₁⟩ := hloop.mpr ⟨hfill, hcan⟩
    obtain ⟨hsame, hkeys⟩ := hlooped t₁ h₁
    rw [← hkeys] at hcans
    obtain ⟨t', h₂⟩ := (runKeys_iff hsame hclauses).mpr hcans
    exact ⟨t', t₁, h₁, h₂⟩
  · rintro t' ⟨t₁, h₁, h₂⟩
    obtain ⟨hsame, hkeys⟩ := hlooped t₁ h₁
    rw [← hkeys]
    exact runKeys_spec hsame hclauses h₂

theorem foldl_afterKey (ks : KeyType → List (List Nat × String))
    (hl : ∀ p ∈ l, Indexable t₀ p.2.columnNames) (kind : KeyType) :
    ∃ new, l.foldl (afterKey t₀) ks kind = ks kind ++ new ∧
      List.Forall₂ (Declares t₀ kind) new ((l.filter fun p => p.1 = kind).map Prod.snd) := by
  induction l generalizing ks with
  | nil => exact ⟨[], (List.append_nil _).symm, .nil⟩
  | cons p l ih =>
    obtain ⟨⟨ids, -, hids, -⟩, hl⟩ := List.forall_mem_cons.mp hl
    obtain ⟨new, hnew, hall⟩ := ih (afterKey t₀ ks p) hl
    rw [List.foldl_cons, hnew, afterKey, added]
    by_cases hkind : p.1 = kind
    · subst hkind
      rw [if_pos rfl, List.append_assoc, List.filter_cons_of_pos (by simp)]
      refine ⟨_, rfl, .cons ⟨?_, fun hkind hname => ?_⟩ hall⟩
      · rw [hids]
        rfl
      · show nameOf _ _ _ _ = _
        rw [nameOf, if_neg hkind, newName, if_pos hname]
    · rw [if_neg (Ne.symm hkind), List.filter_cons_of_neg (by simpa using hkind)]
      exact ⟨new, rfl, hall⟩

theorem length_foldl_afterKey (ks : KeyType → List (List Nat × String)) (kind : KeyType) :
    (l.foldl (afterKey t₀) ks kind).length =
      (ks kind).length + (l.filter fun p => p.1 = kind).length := by
  induction l generalizing ks with
  | nil => rfl
  | cons p l ih =>
    rw [List.foldl_cons, ih, afterKey, added]
    by_cases hkind : p.1 = kind
    · rw [if_pos hkind.symm, List.filter_cons_of_pos (by simpa using hkind), List.length_append,
        List.length_cons, List.length_cons, List.length_nil]
      omega
    · rw [if_neg (Ne.symm hkind), List.filter_cons_of_neg (by simpa using hkind)]

/-! ## The keys of all columns -/

theorem foundAbove_of_ne {caseSensitive : Bool} {names : List String} {name : String}
    (h : ∀ n ∈ names, nameKey caseSensitive n ≠ nameKey caseSensitive name) :
    foundAbove caseSensitive names name = false := by
  have hnone : (names.findIdx? fun n => nameEq caseSensitive n name) = none :=
    List.findIdx?_eq_none_iff.mpr fun n hn => Bool.eq_false_iff.mpr fun heq => h n hn (nameEq_iff.mp heq)
  rw [foundAbove, hnone]
  rfl

theorem foundAbove_append_self {caseSensitive : Bool} {names : List String} {name : String}
    (h : ∀ n ∈ names, nameKey caseSensitive n ≠ nameKey caseSensitive name) :
    foundAbove caseSensitive (names ++ [name]) name = !names.isEmpty := by
  have hfound : ((names ++ [name]).findIdx? fun n => nameEq caseSensitive n name) = some names.length := by
    have hnone : (names.findIdx? fun n => nameEq caseSensitive n name) = none :=
      List.findIdx?_eq_none_iff.mpr fun n hn => Bool.eq_false_iff.mpr fun heq => h n hn (nameEq_iff.mp heq)
    rw [List.findIdx?_append, hnone, Option.none_or, List.findIdx?_singleton, if_pos (nameEq_iff.mpr rfl)]
    exact congrArg some (Nat.zero_add _)
  rw [foundAbove, hfound]
  cases names <;> rfl

/-- The keys that the loop has made for some columns. -/
structure KeysOf (columns : List ColumnMeta) (ks : KeyType → List (List Nat × String)) : Prop where
  primary : (ks .PRIMARY_KEY).length = (columns.filter ColumnMeta.m_isPrimary).length
  unique : (ks .UNIQUE_KEY).map Prod.snd =
    (columns.filter ColumnMeta.m_isUnique).map ColumnMeta.m_columnName
  index : (ks .INDEX).map Prod.snd =
    (columns.filter fun c => c.m_isUnique || c.m_isIndex).map ColumnMeta.m_columnName

variable {done columns : List ColumnMeta}

theorem keysOf_nil : KeysOf [] fun _ => [] := ⟨rfl, rfl, rfl⟩

theorem KeysOf.free (h : KeysOf done ks) {caseSensitive : Bool} {name : String}
    (hname : ∀ c ∈ done, nameKey caseSensitive c.m_columnName ≠ nameKey caseSensitive name) :
    ∀ kind, kind ≠ .PRIMARY_KEY → ∀ n ∈ (ks kind).map Prod.snd,
      nameKey caseSensitive n ≠ nameKey caseSensitive name := by
  intro kind hkind n hn
  cases kind with
  | PRIMARY_KEY => exact absurd rfl hkind
  | UNIQUE_KEY =>
    rw [h.unique] at hn
    obtain ⟨c, hc, rfl⟩ := List.mem_map.mp hn
    exact hname c (List.mem_of_mem_filter hc)
  | INDEX =>
    rw [h.index] at hn
    obtain ⟨c, hc, rfl⟩ := List.mem_map.mp hn
    exact hname c (List.mem_of_mem_filter hc)

theorem canAdd_columnKey (hne : c.m_columnName ≠ "") (hkind : kind ≠ .PRIMARY_KEY) {caseSensitive : Bool} :
    CanAdd caseSensitive ks kind (columnKey c) ↔ takenName caseSensitive ks c.m_columnName = false :=
  ⟨fun h => h.2.2.2 hkind hne, fun h => ⟨List.cons_ne_nil _ _, by simp [columnKey], fun heq => absurd heq hkind,
    fun _ _ => h⟩⟩

theorem KeysOf.column (h : KeysOf done ks) (hne : c.m_columnName ≠ "") :
    KeysOf (done ++ [c]) ((columnClauses c).foldl (afterKey t₀) ks) := by
  have hname (ks : KeyType → List (List Nat × String)) :
      newName t₀.caseSensitive ks (columnKey c) = c.m_columnName := if_pos hne
  obtain ⟨hprimary, hunique, hindex⟩ := h
  -- one case for each combination of the flags
  refine ⟨?_, ?_, ?_⟩
  · rw [List.filter_append, List.length_append, ← hprimary, columnClauses]
    cases hp : c.m_isPrimary <;> cases c.m_isUnique <;> cases c.m_isIndex <;>
      simp [afterKey, added, hp]
  · rw [List.filter_append, List.map_append, ← hunique, columnClauses]
    cases c.m_isPrimary <;> cases hu : c.m_isUnique <;> cases c.m_isIndex <;>
      simp [afterKey, added, nameOf, hname, hu]
  · rw [List.filter_append, List.map_append, ← hindex, columnClauses]
    cases c.m_isPrimary <;> cases hu : c.m_isUnique <;> cases hx : c.m_isIndex <;>
      simp [afterKey, added, nameOf, hname, hu, hx]

/-- When the clauses of a column can be added behind those of the columns before it. -/
theorem canAddAll_column (h : KeysOf done ks) (hne : c.m_columnName ≠ "")
    (hname : ∀ c' ∈ done, nameKey t₀.caseSensitive c'.m_columnName ≠
      nameKey t₀.caseSensitive c.m_columnName)
    (hprimary : c.m_isPrimary = true → done.filter ColumnMeta.m_isPrimary = []) :
    CanAddAll t₀ ks (columnClauses c) ↔
      (c.m_isUnique = true → done.filter ColumnMeta.m_isUnique = []) := by
  have hfree := h.free hname
  have hnone := foundAbove_of_ne (hfree .INDEX (by decide))
  have hself := foundAbove_append_self (hfree .UNIQUE_KEY (by decide))
  have htaken : takenName t₀.caseSensitive ks c.m_columnName = false := by
    rw [takenName, hnone, foundAbove_of_ne (hfree .UNIQUE_KEY (by decide))]
    rfl
  have hpk : c.m_isPrimary = true → ks .PRIMARY_KEY = [] := fun hp => by
    rw [← List.length_eq_zero_iff, h.primary, hprimary hp]
    rfl
  rw [columnClauses, canAddAll_append, canAddAll_append]
  generalize hks₁ : (if c.m_isPrimary then [(KeyType.PRIMARY_KEY, columnKey c)] else []).foldl (afterKey t₀) ks
    = ks₁
  have hsame : ks₁ .UNIQUE_KEY = ks .UNIQUE_KEY ∧ ks₁ .INDEX = ks .INDEX := by
    rw [← hks₁]
    split <;> exact ⟨rfl, rfl⟩
  -- the first two keys can always be made
  have hfirst : CanAddAll t₀ ks (if c.m_isPrimary then [(KeyType.PRIMARY_KEY, columnKey c)] else []) := by
    split
    case isTrue hp =>
      exact ⟨⟨List.cons_ne_nil _ _, by simp [columnKey], fun _ => hpk hp, fun h => absurd rfl h⟩, trivial⟩
    case isFalse => trivial
  have hsecond : CanAddAll t₀ ks₁ (if c.m_isUnique then [(KeyType.UNIQUE_KEY, columnKey c)] else []) := by
    split
    · refine ⟨(canAdd_columnKey hne (show KeyType.UNIQUE_KEY ≠ .PRIMARY_KEY by decide)).mpr ?_, trivial⟩
      rw [takenName, hsame.1, hsame.2]
      exact htaken
    · trivial
  rw [List.foldl_append, hks₁, and_iff_right hfirst, and_iff_right hsecond]
  -- the index has the name of the unique key, which is found where it is not the first one
  cases hu : c.m_isUnique with
  | false =>
    refine iff_of_true ?_ fun h => by cases h
    rw [if_neg Bool.false_ne_true, List.foldl_nil, Bool.false_or]
    split
    · refine ⟨(canAdd_columnKey hne (show KeyType.INDEX ≠ .PRIMARY_KEY by decide)).mpr ?_, trivial⟩
      rw [takenName, hsame.1, hsame.2]
      exact htaken
    · trivial
  | true =>
    have hindexs : (afterKey t₀ ks₁ (.UNIQUE_KEY, columnKey c) .INDEX).map Prod.snd =
        (ks .INDEX).map Prod.snd := congrArg _ hsame.2
    have huniques : (afterKey t₀ ks₁ (.UNIQUE_KEY, columnKey c) .UNIQUE_KEY).map Prod.snd =
        (ks .UNIQUE_KEY).map Prod.snd ++ [c.m_columnName] := by
      show (ks₁ .UNIQUE_KEY ++ [_]).map Prod.snd = _
      rw [List.map_append, hsame.1]
      exact congrArg (fun name => _ ++ [name]) (if_pos hne)
    rw [if_pos rfl, List.foldl_cons, List.foldl_nil, Bool.true_or, if_pos rfl, CanAddAll,
      canAdd_columnKey hne (show KeyType.INDEX ≠ .PRIMARY_KEY by decide), takenName, hindexs,
      huniques, hnone, hself, h.unique]
    simp [CanAddAll]

theorem canAddAll_columns (t₀ : TableMeta) (hks : KeysOf done ks)
    (hdistinct : ((done ++ columns).map fun c => nameKey t₀.caseSensitive c.m_columnName).Nodup)
    (hnamed : ∀ c ∈ columns, c.m_columnName ≠ "")
    (hprimary : ((done ++ columns).filter ColumnMeta.m_isPrimary).length ≤ 1)
    (hunique : (done.filter ColumnMeta.m_isUnique).length ≤ 1) :
    CanAddAll t₀ ks (columns.flatMap columnClauses) ↔
      ((done ++ columns).filter ColumnMeta.m_isUnique).length ≤ 1 := by
  induction columns generalizing done ks with
  | nil =>
    rw [List.append_nil]
    exact iff_of_true trivial hunique
  | cons c columns ih =>
    obtain ⟨hne, hnamed⟩ := List.forall_mem_cons.mp hnamed
    have hname : ∀ c' ∈ done, nameKey t₀.caseSensitive c'.m_columnName ≠
        nameKey t₀.caseSensitive c.m_columnName := by
      intro c' hc' heq
      rw [List.map_append, List.nodup_append] at hdistinct
      exact hdistinct.2.2 _ (List.mem_map_of_mem hc') _ (List.mem_map_of_mem List.mem_cons_self) heq
    have hfirst : c.m_isPrimary = true → done.filter ColumnMeta.m_isPrimary = [] := by
      intro hp
      rw [List.filter_append, List.length_append, List.filter_cons_of_pos hp, List.length_cons] at hprimary
      exact List.length_eq_zero_iff.mp (by omega)
    rw [List.append_cons] at hdistinct hprimary ⊢
    rw [List.flatMap_cons, canAddAll_append, canAddAll_column hks hne hname hfirst]
    by_cases hok : c.m_isUnique = true → done.filter ColumnMeta.m_isUnique = []
    · rw [and_iff_right hok]
      refine ih (hks.column hne) hdistinct hnamed hprimary ?_
      cases hu : c.m_isUnique with
      | false => simpa [hu] using hunique
      | true => simp [hok hu, hu]
    · obtain ⟨hu, hdone⟩ := Classical.not_imp.mp hok
      refine iff_of_false (fun h => hok h.1) ?_
      have hpos := List.length_pos_iff.mpr hdone
      rw [List.filter_append, List.filter_append, List.length_append, List.length_append,
        List.filter_cons_of_pos hu, List.length_cons]
      omega

/-! ## The statement -/

/-- The collection takes a new version of a table: its database is there, nothing in it begins behind
    the checkpoint, and the tree of the ids has a place. -/
structure Receives (c : MetaDataCollection) (cp : Nat) (n : TableName) (db : DbInfo) : Prop where
  settled : c.Settled cp
  database : c.current n.database = some db
  old : c.Old cp n
  tree : ∀ m, ∃ tree, c.m_allTables.put (c.withId n m) = .ok tree

/-- What a statement is like that the parser makes: `tableDef` has columns only, at most one primary
    key is declared, and the columns of all keys are there and may be in a key. -/
structure Consistent (d : CreateTable) : Prop where
  noKeys : ∀ kind, d.tableDef.keyColumns kind = []
  named : WellNamed d.tableDef
  primary : (d.declared .PRIMARY_KEY).length ≤ 1
  indexable : ∀ p ∈ d.columnKeys ++ d.clauses, Indexable d.tableDef p.2.columnNames

def CreateTable.database (d : CreateTable) : Option String :=
  (AlterTable.nonEmpty d.tableDef.m_dbName).or (AlterTable.nonEmpty d.usedDb)

/-- The statement succeeds, and the table that is stored has the declared keys and no other ones. -/
def CreatedAsDeclared (c : MetaDataCollection) (d : CreateTable) (cp : Nat) (database : String) : Prop :=
  ∃ c' m, c.createTable d cp = .ok (0, c') ∧
    (∀ x, cp ≤ x → c'.get database d.tableDef.m_tableName x = .ok (some m)) ∧
    ∀ kind, List.Forall₂ (Declares d.tableDef kind) (m.keyColumns kind) (d.declared kind)

/-- At most one column is `UNIQUE`, and it is `KEY` as well; each column finds its charset; each clause
    has from 1 to 255 columns, and a name that is not found at its turn. -/
structure Creatable (d : CreateTable) (charset : Option CharsetInfo) : Prop where
  unique : (d.tableDef.m_columns.filter ColumnMeta.m_isUnique).length ≤ 1
  index : ∀ c ∈ d.tableDef.m_columns, c.m_isUnique = true → c.m_isIndex = true
  charsets : ∀ c ∈ d.tableDef.m_columns, Fillable (d.tableDef.m_charset.or charset) c
  clauses : CanAddAll d.tableDef (d.columnKeys.foldl (afterKey d.tableDef) fun _ => []) d.clauses

namespace MetaDataCollection

variable {c : MetaDataCollection} {cp : Nat} {n : TableName} {db : DbInfo} {m : TableMeta}

theorem put_receives (h : Receives c cp n db) (hname : m.m_tableName = n.table) : ∃ c',
    c.put n.database n.table (some m) cp = .ok (0, some (c.withId n m), c') ∧
      ∀ x, cp ≤ x → c'.get n.database n.table x = .ok (some (c.withId n m)) := by
  obtain ⟨tree, htree⟩ := h.tree m
  refine ⟨_, by rw [put_eq h.settled h.database h.old hname, htree]; rfl, fun x hx => ?_⟩
  have huntil : (c.linked n m cp).Until cp := ⟨_, _, _, rfl, Nat.le_refl cp⟩
  have hsettled := h.settled.setTimeline h.database huntil
  have hlookup : (c.setTimeline n (c.linked n m cp)).lookup n = some (c.withId n m) := by
    rw [lookup, timeline_setTimeline h.database, if_pos rfl]
    rfl
  exact (Settled.get (c := { c.setTimeline n (c.linked n m cp) with
    m_allTables := tree
    m_maxTableId := c.nextTableId n }) ⟨hsettled.client, hsettled.database, hsettled.table⟩ hx n).trans
    (congrArg Except.ok hlookup)

end MetaDataCollection

theorem columnClauses_eq (h : c.m_isUnique = true → c.m_isIndex = true) :
    columnClauses c = columnDeclared c := by
  have hflag : (c.m_isUnique || c.m_isIndex) = c.m_isIndex := by
    cases hu : c.m_isUnique with
    | false => exact Bool.false_or _
    | true => rw [h hu, Bool.or_true]
  rw [columnClauses, columnDeclared, hflag]

theorem index_of_length
    (h : ((columns.flatMap columnClauses).filter fun p => p.1 = KeyType.INDEX).length =
      ((columns.flatMap columnDeclared).filter fun p => p.1 = KeyType.INDEX).length) :
    ∀ c ∈ columns, c.m_isUnique = true → c.m_isIndex = true := by
  have hclauses (c : ColumnMeta) : ((columnClauses c).filter fun p => p.1 = KeyType.INDEX).length =
      if c.m_isUnique || c.m_isIndex then 1 else 0 := by
    unfold columnClauses
    cases c.m_isPrimary <;> cases c.m_isUnique <;> cases c.m_isIndex <;> rfl
  have hdeclared (c : ColumnMeta) : ((columnDeclared c).filter fun p => p.1 = KeyType.INDEX).length =
      if c.m_isIndex then 1 else 0 := by
    unfold columnDeclared
    cases c.m_isPrimary <;> cases c.m_isUnique <;> cases c.m_isIndex <;> rfl
  have hle (columns : List ColumnMeta) :
      ((columns.flatMap columnDeclared).filter fun p => p.1 = KeyType.INDEX).length ≤
        ((columns.flatMap columnClauses).filter fun p => p.1 = KeyType.INDEX).length := by
    induction columns with
    | nil => exact Nat.le_refl _
    | cons c columns ih =>
      simp only [List.flatMap_cons, List.filter_append, List.length_append, hclauses, hdeclared]
      cases c.m_isUnique <;> cases c.m_isIndex <;> simp <;> omega
  induction columns with
  | nil => simp
  | cons c columns ih =>
    simp only [List.flatMap_cons, List.filter_append, List.length_append, hclauses, hdeclared] at h
    have hrest := hle columns
    rw [List.forall_mem_cons]
    cases hu : c.m_isUnique <;> cases hx : c.m_isIndex <;> simp only [hu, hx, Bool.or_true, Bool.or_false,
      Bool.false_eq_true, if_true, if_false] at h
    · exact ⟨fun h => absurd h Bool.false_ne_true, ih (by omega)⟩
    · exact ⟨fun _ => rfl, ih (by omega)⟩
    · omega
    · exact ⟨fun _ => rfl, ih (by omega)⟩

theorem createTable_eq {c : MetaDataCollection} {cp : Nat} {db : DbInfo} {database : String}
    (hd : Consistent d) (hdatabase : d.database = some database)
    (hc : Receives c cp ⟨database, d.tableDef.m_tableName⟩ db) :
    c.createTable d cp = (({ d.tableDef.copied with
      m_dbName := database
      m_charset := d.tableDef.m_charset.or db.charset } : TableMeta).createKeys d >>= fun p =>
        if p.1 ≠ 0 then p.2.delete >>= fun _ => .ok (-1, c)
        else c.putVersion p.2.buildColumnOffsetList cp) := by
  have hempty (kind : KeyType) : d.tableDef.keys kind = [] := List.map_eq_nil_iff.mp (hd.noKeys kind)
  have hwritten : d.tableDef.Written := by
    have hunique : d.tableDef.m_uniqueKeys.keys = [] := hempty .UNIQUE_KEY
    have hindex : d.tableDef.m_indexs.keys = [] := hempty .INDEX
    refine ⟨?_, ?_⟩
    · rw [TableMeta.allWritten, hunique]
      rfl
    · rw [TableMeta.allWritten, hindex]
      rfl
  unfold MetaDataCollection.createTable
  rw [copy_eq_ok.mpr ⟨hwritten, rfl⟩, Exec.ok_bind,
    show (AlterTable.nonEmpty d.tableDef.copied.m_dbName).or _ = some database from hdatabase]
  dsimp only
  rw [hc.settled.getDatabase (Nat.le_refl cp), Exec.ok_bind, show c.current database = some db from hc.database]
  rfl

theorem createTable_base (hd : Consistent d) (database : String) (charset : Option CharsetInfo) :
    let t₀ : TableMeta := { d.tableDef.copied with m_dbName := database, m_charset := charset }
    WellNamed t₀ ∧ (∀ c ∈ t₀.m_columns, ColumnIndexable t₀ c) ∧
      (∀ p ∈ d.clauses, Indexable t₀ p.2.columnNames) ∧ t₀.keyColumns = fun _ => [] := by
  refine ⟨⟨hd.named.numbered, hd.named.distinct, hd.named.named⟩, fun c hc hflag => ?_,
    fun p hp => hd.indexable p (List.mem_append_right _ hp), funext fun kind => ?_⟩
  · have hmem (p : KeyType × AddKey) (hp : p ∈ columnDeclared c) : Indexable d.tableDef p.2.columnNames :=
      hd.indexable p (List.mem_append_left _ (List.mem_flatMap.mpr ⟨c, hc, hp⟩))
    unfold columnDeclared at hmem
    rcases hflag with hflag | hflag | hflag
    · exact hmem (.PRIMARY_KEY, columnKey c) (by simp [hflag])
    · exact hmem (.UNIQUE_KEY, columnKey c) (by simp [hflag])
    · exact hmem (.INDEX, columnKey c) (by simp [hflag])
  · rw [← hd.noKeys kind]
    cases kind <;> rfl

theorem canAddAll_congr (hafter : afterKey t = afterKey t₀) (hcase : t.caseSensitive = t₀.caseSensitive) :
    CanAddAll t ks l ↔ CanAddAll t₀ ks l := by
  induction l generalizing ks with
  | nil => exact Iff.rfl
  | cons p l ih => rw [CanAddAll, CanAddAll, hafter, hcase, ih]

/-- When a statement succeeds, and which keys its table has. -/
theorem createTable_ok {c : MetaDataCollection} {cp : Nat} {db : DbInfo} {database : String}
    (hd : Consistent d) (hdatabase : d.database = some database)
    (hc : Receives c cp ⟨database, d.tableDef.m_tableName⟩ db) :
    let l := d.tableDef.m_columns.flatMap columnClauses ++ d.clauses
    ((∃ c', c.createTable d cp = .ok (0, c')) ↔
      (∀ c ∈ d.tableDef.m_columns, Fillable (d.tableDef.m_charset.or db.charset) c) ∧
        CanAddAll d.tableDef (fun _ => []) l) ∧
    ∀ c', c.createTable d cp = .ok (0, c') → ∃ m : TableMeta,
      (∀ x, cp ≤ x → c'.get database d.tableDef.m_tableName x = .ok (some m)) ∧
        m.keyColumns = l.foldl (afterKey d.tableDef) fun _ => [] := by
  intro l
  obtain ⟨hnamed, hcolumns, hclauses, hkeys⟩ :=
    createTable_base hd database (d.tableDef.m_charset.or db.charset)
  have heq := createTable_eq hd hdatabase hc
  generalize ht₀ : ({ d.tableDef.copied with
    m_dbName := database
    m_charset := d.tableDef.m_charset.or db.charset } : TableMeta) = t₀ at hnamed hcolumns hclauses hkeys heq
  obtain ⟨hmade, hmadeKeys⟩ := createKeys_iff hnamed hcolumns hclauses
  have hafter : afterKey t₀ = afterKey d.tableDef := by
    rw [← ht₀]
    rfl
  have hcase : t₀.caseSensitive = d.tableDef.caseSensitive := by
    rw [← ht₀]
    rfl
  have hsameColumns : t₀.m_columns = d.tableDef.m_columns := by
    rw [← ht₀]
    rfl
  have hcharset : t₀.m_charset = d.tableDef.m_charset.or db.charset := by rw [← ht₀]
  rw [hkeys, hafter, hsameColumns] at hmadeKeys
  rw [hkeys, canAddAll_congr hafter hcase, hsameColumns, hcharset] at hmade
  -- `put` takes the table, whatever keys it has
  have hput (t : TableMeta) (hsame : SameTable t₀ t) : ∃ c', c.putVersion t.buildColumnOffsetList cp =
      .ok (0, c') ∧ ∃ m : TableMeta, (∀ x, cp ≤ x → c'.get database d.tableDef.m_tableName x = .ok (some m)) ∧
        m.keyColumns = t.keyColumns := by
    have hdb : t.m_dbName = database := hsame.dbName.trans (by rw [← ht₀])
    have htable : t.m_tableName = d.tableDef.m_tableName := hsame.tableName.trans (by rw [← ht₀]; rfl)
    obtain ⟨c', hput, hget⟩ := MetaDataCollection.put_receives hc (m := t.buildColumnOffsetList) htable
    have hcall : c.put t.buildColumnOffsetList.m_dbName t.buildColumnOffsetList.m_tableName
        (some t.buildColumnOffsetList) cp = _ := (congrArg₂ (fun a b => c.put a b _ cp) hdb htable).trans hput
    refine ⟨c', ?_, _, hget, ?_⟩
    · rw [MetaDataCollection.putVersion, hcall]
      rfl
    · funext kind
      cases kind <;> rfl
  rw [heq]
  refine ⟨⟨?_, ?_⟩, ?_⟩
  · rintro ⟨c', hcreate⟩
    obtain ⟨⟨r, t⟩, hkeysRun, hrest⟩ := Exec.of_bind hcreate
    split at hrest
    case isTrue =>
      obtain ⟨_, -, hret⟩ := Exec.of_bind hrest
      cases hret
    case isFalse hr =>
      cases not_not.mp hr
      exact hmade.mp ⟨t, hkeysRun⟩
  · intro hcan
    obtain ⟨t, hkeysRun⟩ := hmade.mpr hcan
    obtain ⟨c', hputRun, -⟩ := hput t (hmadeKeys t hkeysRun).1
    refine ⟨c', ?_⟩
    rw [hkeysRun, Exec.ok_bind]
    exact (if_neg fun h => h rfl).trans hputRun
  · intro c' hcreate
    obtain ⟨⟨r, t⟩, hkeysRun, hrest⟩ := Exec.of_bind hcreate
    split at hrest
    case isTrue =>
      obtain ⟨_, -, hret⟩ := Exec.of_bind hrest
      cases hret
    case isFalse hr =>
      cases not_not.mp hr
      obtain ⟨hsame, hmadeKeys⟩ := hmadeKeys t hkeysRun
      obtain ⟨c'', hputRun, m, hget, hkeys'⟩ := hput t hsame
      cases hputRun.symm.trans hrest
      exact ⟨m, hget, hkeys'.trans hmadeKeys⟩

/-- `CREATE TABLE` makes the keys that are declared if and only if at most one column is `UNIQUE`, that
    one is `KEY` as well, and nothing else is in the way. -/
theorem createTable_declared_iff (c : MetaDataCollection) (d : CreateTable) (cp : Nat) (db : DbInfo)
    (database : String) (hd : Consistent d) (hdatabase : d.database = some database)
    (hc : Receives c cp ⟨database, d.tableDef.m_tableName⟩ db) :
    CreatedAsDeclared c d cp database ↔ Creatable d db.charset := by
  obtain ⟨hok, hmade⟩ := createTable_ok hd hdatabase hc
  have hdeclaredColumns (h : ∀ c ∈ d.tableDef.m_columns, c.m_isUnique = true → c.m_isIndex = true) :
      d.tableDef.m_columns.flatMap columnClauses = d.columnKeys :=
    List.flatMap_congr fun c hc => columnClauses_eq (h c hc)
  have hpk : (d.tableDef.m_columns.filter ColumnMeta.m_isPrimary).length ≤ 1 := by
    have hle : (d.tableDef.m_columns.filter ColumnMeta.m_isPrimary).length =
        (d.columnKeys.filter fun p => p.1 = KeyType.PRIMARY_KEY).length := by
      unfold CreateTable.columnKeys
      induction d.tableDef.m_columns with
      | nil => rfl
      | cons c columns ih =>
        rw [List.flatMap_cons, List.filter_append, List.length_append, ← ih]
        unfold columnDeclared
        cases hp : c.m_isPrimary <;> cases c.m_isUnique <;> cases c.m_isIndex <;> simp [hp] <;> omega
    have hprimary := hd.primary
    rw [CreateTable.declared, List.filter_append, List.length_map, List.length_append] at hprimary
    omega
  have hunique := canAddAll_columns d.tableDef keysOf_nil hd.named.distinct hd.named.named hpk (Nat.zero_le 1)
  constructor
  · rintro ⟨c', m, hcreate, hget, hall⟩
    obtain ⟨hfill, hcan⟩ := hok.mp ⟨c', hcreate⟩
    obtain ⟨m', hget', hkeys⟩ := hmade c' hcreate
    cases (hget cp (Nat.le_refl cp)).symm.trans (hget' cp (Nat.le_refl cp))
    obtain ⟨hcanColumns, hcanClauses⟩ := canAddAll_append.mp hcan
    have hindex : ∀ c ∈ d.tableDef.m_columns, c.m_isUnique = true → c.m_isIndex = true := by
      refine index_of_length ?_
      -- the indexes that are there are as many as those that are declared
      have hlength := (hall .INDEX).length_eq
      rw [hkeys, length_foldl_afterKey, CreateTable.declared, List.length_map, List.filter_append,
        List.filter_append, List.length_append, List.length_append, List.length_nil] at hlength
      have hcolumns : d.columnKeys = d.tableDef.m_columns.flatMap columnDeclared := rfl
      rw [hcolumns] at hlength
      omega
    rw [hdeclaredColumns hindex] at hcanClauses
    exact ⟨hunique.mp hcanColumns, hindex, hfill, hcanClauses⟩
  · rintro ⟨hcount, hindex, hfill, hclauses⟩
    have hcan : CanAddAll d.tableDef (fun _ => []) (d.tableDef.m_columns.flatMap columnClauses ++ d.clauses) := by
      refine canAddAll_append.mpr ⟨hunique.mpr hcount, ?_⟩
      rw [hdeclaredColumns hindex]
      exact hclauses
    obtain ⟨c', hcreate⟩ := hok.mpr ⟨hfill, hcan⟩
    obtain ⟨m, hget, hkeys⟩ := hmade c' hcreate
    refine ⟨c', m, hcreate, hget, fun kind => ?_⟩
    rw [hkeys, hdeclaredColumns hindex]
    obtain ⟨new, hnew, hall⟩ := foldl_afterKey (fun _ => []) hd.indexable kind
    rw [hnew]
    exact hall

def emptyDatabase : MetaDataCollection where
  m_dbs := [("d", ⟨.version (some { name := "d" }) 10 .null, 10, 1⟩)]

def createUniqueA : CreateTable where
  usedDb := "d"
  tableDef := {
    m_tableName := "t"
    m_columns := [{ m_columnType := .T_INT32, m_columnName := "a", m_isUnique := true }] }
  primaryKey := ⟨"", []⟩
  uniqueKeys := []
  indexs := []

def createUniqueAB : CreateTable where
  usedDb := "d"
  tableDef := {
    m_tableName := "t"
    m_columns := [
      { m_columnType := .T_INT32, m_columnName := "a", m_isUnique := true },
      { m_columnType := .T_INT32, m_columnName := "b", m_columnIndex := 1, m_isUnique := true }] }
  primaryKey := ⟨"", []⟩
  uniqueKeys := []
  indexs := []

theorem emptyDatabase_receives : Receives emptyDatabase 30 ⟨"d", "t"⟩ { name := "d" } where
  settled := by
    refine (MetaDataCollection.settled_of_entries rfl fun e he => ?_).1
    cases List.mem_singleton.mp he
    refine ⟨⟨_, _, _, rfl, by decide⟩, fun currentDB hnewest e' he' => ?_⟩
    cases hnewest
    cases he'
  database := by decide
  old := by
    intro metas hmetas
    have hnone : emptyDatabase.timeline ⟨"d", "t"⟩ = none := rfl
    cases hnone.symm.trans hmetas
  tree m := by
    have howner : emptyDatabase.owner ⟨"d", "t"⟩ = MetaTimeline.create 1 := rfl
    rw [MetaDataCollection.withId, howner]
    have hid : tableID (genTableId (MetaTimeline.create 1 : MetaTimeline TableMeta).m_id
        (MetaTimeline.create 1 : MetaTimeline TableMeta).m_version) = 1 := rfl
    generalize genTableId (MetaTimeline.create 1 : MetaTimeline TableMeta).m_id
      (MetaTimeline.create 1 : MetaTimeline TableMeta).m_version = id at hid
    obtain ⟨tree, hput, -⟩ := Inv.put (m := setId m id) inv_create
      (fun a ha => absurd ha List.not_mem_nil) (by rw [HasMetaId.m_id_setId, hid])
      (by rw [HasMetaId.m_id_setId, hid]; norm_num) (by norm_num) (fun a ha => absurd ha List.not_mem_nil)
    exact ⟨tree, hput⟩

theorem createUniqueA_consistent : Consistent createUniqueA where
  noKeys kind := by cases kind <;> rfl
  named := by
    refine ⟨fun i c hc => ?_, by decide, by decide⟩
    cases i with
    | zero =>
      cases hc
      rfl
    | succ i => cases hc
  primary := by decide
  indexable p hp := by
    have hp : p = (.UNIQUE_KEY, columnKey { m_columnType := .T_INT32, m_columnName := "a", m_isUnique := true }) :=
      List.mem_singleton.mp hp
    rw [hp]
    exact ⟨[0], [.T_INT32], by decide, by decide⟩

theorem createUniqueA_declared_iff :
    CreatedAsDeclared emptyDatabase createUniqueA 30 "d" ↔ Creatable createUniqueA none :=
  createTable_declared_iff emptyDatabase createUniqueA 30 { name := "d" } "d" createUniqueA_consistent
    (by decide) emptyDatabase_receives

/-- The index that is not declared, and the second `UNIQUE` that is refused. -/
theorem createTable_not_as_declared :
    (¬CreatedAsDeclared emptyDatabase createUniqueA 30 "d" ∧
      (do
        let (_, c) ← emptyDatabase.createTable createUniqueA 30
        let m ← c.get "d" "t" 30
        return m.map (TableMeta.keyColumns · .INDEX)) = .ok (some [([0], "a")])) ∧
    ¬CreatedAsDeclared emptyDatabase createUniqueAB 30 "d" ∧
      (emptyDatabase.createTable createUniqueAB 30).map Prod.fst = .ok (-1) := by
  have hindex : (do
      let (_, c) ← emptyDatabase.createTable createUniqueA 30
      let m ← c.get "d" "t" 30
      return m.map (TableMeta.keyColumns · .INDEX)) = .ok (some [([0], "a")]) := by decide
  have hrefused : (emptyDatabase.createTable createUniqueAB 30).map Prod.fst = .ok (-1) := by
    decide +kernel
  refine ⟨⟨?_, hindex⟩, ?_, hrefused⟩
  · rintro ⟨c', m, hcreate, hget, hall⟩
    have hget' : c'.get "d" "t" 30 = .ok (some m) := hget 30 (Nat.le_refl 30)
    rw [hcreate, Exec.ok_bind] at hindex
    dsimp only at hindex
    rw [hget', Exec.ok_bind] at hindex
    have hkeys : m.keyColumns .INDEX = [([0], "a")] := Option.some.inj (Except.ok.inj hindex)
    have hlength := (hall .INDEX).length_eq
    rw [hkeys] at hlength
    exact absurd hlength (by decide)
  · rintro ⟨c', m, hcreate, -⟩
    rw [hcreate] at hrefused
    cases hrefused

end DBStream.Native.Meta
