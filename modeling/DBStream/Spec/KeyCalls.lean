import DBStream.Spec.ColumnLayout

/-!
# Calls that change keys

`KeyCall` has the calls that create, drop and rename the keys of a table.  They mark the columns of the
keys, which changes flags only (`Remarked`).  `keyCall_cases` says what a call does to the keys when the
key it drops, if any, is the last of its array: the array then loses its last slot.  The drop of another
key leaves the last slot of the new array as it was allocated (`withoutKey_inner`).
-/

namespace DBStream.Native.Meta

/-- A call that changes the keys of a table. -/
inductive KeyCall where
  | createPrimaryKey (columns : List String)
  | dropPrimaryKey
  | addIndex (indexName : String) (columns : List String) (keyType : KeyType)
  | dropUniqueKey (ukName : String)
  | dropIndex (indexName : String)
  | renameIndex (oldName newName : String)

namespace TableMeta

variable (t : TableMeta)

def keyCall : KeyCall → Exec (Int × TableMeta)
  | .createPrimaryKey columns => t.createPrimaryKey columns
  | .dropPrimaryKey => do return (0, ← t.dropPrimaryKey)
  | .addIndex indexName columns keyType => t.addIndex indexName columns keyType
  | .dropUniqueKey ukName => t.dropUniqueKey ukName
  | .dropIndex indexName => t.dropIndex indexName
  | .renameIndex oldName newName => t.renameIndex oldName newName

/-- The kind and the place of the key that a call drops from an array. -/
def dropped : KeyCall → Option (KeyType × Nat)
  | .dropUniqueKey ukName => (t.keyId t.m_uniqueKeys ukName).map fun idx => (.UNIQUE_KEY, idx)
  | .dropIndex indexName =>
    match t.keyId t.m_indexs indexName with
    | some idx => some (.INDEX, idx)
    | none => (t.keyId t.m_uniqueKeys indexName).map fun idx => (.UNIQUE_KEY, idx)
  | _ => none

end TableMeta

/-- The key that a call drops is the last one of its array. -/
def DropsLast (t : TableMeta) (call : KeyCall) : Prop :=
  ∀ p ∈ t.dropped call, p.2 + 1 = (t.keys p.1).length

/-! ## Flags of columns -/

/-- The flag of the columns of a kind of key. -/
def KeyType.flag : KeyType → ColumnMeta → Bool
  | .PRIMARY_KEY, c => c.m_isPrimary
  | .UNIQUE_KEY, c => c.m_isUnique
  | .INDEX, c => c.m_isIndex

def KeyType.unflag : KeyType → ColumnMeta → ColumnMeta
  | .PRIMARY_KEY, c => { c with m_isPrimary := false }
  | .UNIQUE_KEY, c => { c with m_isUnique := false }
  | .INDEX, c => { c with m_isIndex := false }

/-- The flag that is cleared when a call drops the only key of a kind: `dropIndex` clears that of the
    indexes. -/
def KeyCall.lastFlag : KeyCall → KeyType → KeyType
  | .dropIndex _, _ => .INDEX
  | _, kind => kind

/-- A column without the flags that keys set. -/
def unmarked (c : ColumnMeta) : ColumnMeta :=
  { c with m_isPrimary := false, m_isUnique := false, m_isIndex := false }

/-- A table in which only such flags have changed. -/
def Remarked (t t' : TableMeta) : Prop :=
  ∃ columns, t' = { t with m_columns := columns } ∧ columns.map unmarked = t.m_columns.map unmarked

variable {t t' t'' : TableMeta} {a a' : KeyArray} {cs : List UniqueKeyTypePair} {name : String}
  {f g mark : ColumnMeta → ColumnMeta} {idx : Nat}

theorem Remarked.refl (t : TableMeta) : Remarked t t := ⟨t.m_columns, rfl, rfl⟩

theorem Remarked.trans (h : Remarked t t') (h' : Remarked t' t'') : Remarked t t'' := by
  obtain ⟨columns, rfl, hcolumns⟩ := h
  obtain ⟨columns', rfl, hcolumns'⟩ := h'
  exact ⟨columns', rfl, hcolumns'.trans hcolumns⟩

theorem map_eq_of_unmarked {α : Type} {columns columns' : List ColumnMeta}
    (h : columns'.map unmarked = columns.map unmarked) {field : ColumnMeta → α}
    (hfield : ∀ c, field (unmarked c) = field c) : columns'.map field = columns.map field := by
  have hmap (l : List ColumnMeta) : l.map field = (l.map unmarked).map field := by
    rw [List.map_map]
    exact List.map_congr_left fun c _ => (hfield c).symm
  rw [hmap, h, ← hmap]

theorem Remarked.columns (h : Remarked t t') : t'.m_columns.map unmarked = t.m_columns.map unmarked := by
  obtain ⟨columns, rfl, hcolumns⟩ := h
  exact hcolumns

theorem types_of_unmarked (h : t'.m_columns.map unmarked = t.m_columns.map unmarked) :
    t'.types = t.types := map_eq_of_unmarked h fun _ => rfl

theorem numbered_of_unmarked (h : t'.m_columns.map unmarked = t.m_columns.map unmarked)
    (hnumbered : Numbered t.m_columns) : Numbered t'.m_columns := by
  intro i c hc
  have hindex : t'.m_columns.map ColumnMeta.m_columnIndex = t.m_columns.map ColumnMeta.m_columnIndex :=
    map_eq_of_unmarked h fun _ => rfl
  have hget := congrArg (fun l : List Nat => l[i]?) hindex
  simp only [List.getElem?_map, hc, Option.map_some] at hget
  obtain ⟨c₀, hc₀, hsame⟩ := Option.map_eq_some_iff.mp hget.symm
  exact hsame.symm.trans (hnumbered i c₀ hc₀)

theorem columnsCount_of_types (h : t'.types = t.types) : t'.columnsCount = t.columnsCount := by
  have htypes := congrArg List.length h
  rwa [TableMeta.types, TableMeta.types, List.length_map, List.length_map] at htypes

theorem Remarked.types (h : Remarked t t') : t'.types = t.types := types_of_unmarked h.columns

theorem Remarked.columnsCount (h : Remarked t t') : t'.columnsCount = t.columnsCount :=
  columnsCount_of_types h.types

theorem Remarked.keys (h : Remarked t t') (kind : KeyType) : t'.keys kind = t.keys kind := by
  obtain ⟨columns, rfl, -⟩ := h
  cases kind <;> rfl

/-- A change of a column that sets or clears flags. -/
def Marks (f : ColumnMeta → ColumnMeta) : Prop := ∀ c, unmarked (f c) = unmarked c

theorem marks_isPrimary (b : Bool) : Marks fun c => { c with m_isPrimary := b } := fun _ => rfl

theorem marks_isIndex (b : Bool) : Marks fun c => { c with m_isIndex := b } := fun _ => rfl

theorem marks_unflag (kind : KeyType) : Marks kind.unflag := fun _ => by cases kind <;> rfl

theorem remarked_modify (t : TableMeta) (hf : Marks f) (i : Nat) :
    Remarked t { t with m_columns := t.m_columns.modify i f } :=
  ⟨_, rfl, map_modify_of_same hf⟩

theorem modifyAt_eq {i : Nat} (h : t.modifyAt i f = .ok t') :
    t' = { t with m_columns := t.m_columns.modify i f } := by
  unfold TableMeta.modifyAt at h
  split at h
  · cases h
  · split at h
    · cases h
    · cases h
      rfl

theorem modifyAt_remarked (hf : Marks f) {i : Nat} (h : t.modifyAt i f = .ok t') : Remarked t t' := by
  rw [modifyAt_eq h]
  exact remarked_modify t hf i

theorem modifyAt_ok {i : Nat} (hi : i < t.columnsCount) (f : ColumnMeta → ColumnMeta) :
    t.modifyAt i f = .ok { t with m_columns := t.m_columns.modify i f } := by
  rw [TableMeta.modifyAt, if_neg (by omega), if_neg (by omega)]

theorem foldlM_remarked {α : Type} {turn : TableMeta → α → Exec TableMeta}
    (hturn : ∀ t x t', turn t x = .ok t' → Remarked t t') {l : List α} (h : l.foldlM turn t = .ok t') :
    Remarked t t' := by
  induction l generalizing t with
  | nil =>
    cases h
    exact .refl _
  | cons x l ih =>
    obtain ⟨t₁, hx, h⟩ := Exec.of_bind h
    exact (hturn t x t₁ hx).trans (ih h)

theorem foldlM_ok {α : Type} {f : TableMeta → α → Exec TableMeta} {column : α → Nat}
    (hf : ∀ t x, column x < t.columnsCount → ∃ t', f t x = .ok t' ∧ Remarked t t') {l : List α}
    (hl : ∀ x ∈ l, column x < t.columnsCount) : ∃ t', l.foldlM f t = .ok t' ∧ Remarked t t' := by
  induction l generalizing t with
  | nil => exact ⟨t, rfl, .refl t⟩
  | cons x l ih =>
    obtain ⟨t₁, hx, hsame⟩ := hf t x (hl x (List.mem_cons_self ..))
    obtain ⟨t₂, hrest, hsame'⟩ := ih (t := t₁) fun y hy => by
      rw [hsame.columnsCount]
      exact hl y (List.mem_cons_of_mem _ hy)
    refine ⟨t₂, ?_, hsame.trans hsame'⟩
    rw [List.foldlM_cons, hx, Exec.ok_bind, hrest]

/-! ## New keys -/

/-- The types of the columns of a new key, if all of them can be part of a key. -/
def keyTypes (types : List ColumnType) (columnIds : List Nat) : Option (List ColumnType) :=
  columnIds.mapM fun id => types[id]?.bind fun type => if type.info.asIndex then some type else none

/-- The key that `createUnionKey` makes of columns with these types. -/
def keyOn (keyId : Nat) (keyType : KeyType) (types : List ColumnType) (columnIds : List Nat) :
    UnionKeyMeta where
  size := (types.map fun t => if t.info.fixed then t.info.columnTypeSize else 2).sum % 2 ^ 16
  fixed := types.all fun t => t.info.fixed
  keyType := keyType
  keyId := keyId % 2 ^ 8
  varColumnCount := (types.countP fun t => !t.info.fixed) % 2 ^ 8
  columnInfo := (types.zip columnIds).map fun p => ⟨p.1.code, p.2⟩

theorem createUnionKey_eq (t : TableMeta) (keyId : Nat) (keyType : KeyType) (columnIds : List Nat) :
    t.createUnionKey keyId keyType columnIds =
      (keyTypes t.types columnIds).map fun types => keyOn keyId keyType types columnIds := by
  let read (id : Nat) : Option ColumnType := do
    let c ← t.m_columns[id]?
    if c.m_columnType.info.asIndex then return c.m_columnType else none
  have hread : columnIds.mapM read = keyTypes t.types columnIds := by
    congr 1
    funext id
    rw [TableMeta.types, List.getElem?_map]
    show (t.m_columns[id]?.bind _) = _
    cases t.m_columns[id]? <;> rfl
  show (columnIds.mapM read >>= _) = _
  rw [hread]
  cases keyTypes t.types columnIds <;> rfl

theorem Remarked.createUnionKey (h : Remarked t t') (keyId : Nat) (keyType : KeyType)
    (columnIds : List Nat) :
    t'.createUnionKey keyId keyType columnIds = t.createUnionKey keyId keyType columnIds := by
  rw [createUnionKey_eq, createUnionKey_eq, h.types]

theorem keyOn_inside (keyId : Nat) (keyType : KeyType) {types ts : List ColumnType}
    {columnIds : List Nat} (h : keyTypes types columnIds = some ts) :
    (keyOn keyId keyType ts columnIds).columnInfo.map UniqueKeyTypePair.columnId = columnIds ∧
      ∀ c ∈ (keyOn keyId keyType ts columnIds).columnInfo,
        (types[c.columnId]?).map ColumnType.code = some c.type := by
  have hall : List.Forall₂ (fun id type => types[id]? = some type) columnIds ts := by
    refine (List.forall₂_of_mapM_eq_some h).imp fun id type hid => ?_
    obtain ⟨type', htype, hsame⟩ := Option.bind_eq_some_iff.mp hid
    split at hsame
    · cases hsame
      exact htype
    · cases hsame
  clear h
  induction hall with
  | nil => exact ⟨rfl, fun c hc => nomatch hc⟩
  | cons hid _ ih =>
    refine ⟨congrArg (_ :: ·) ih.1, fun c hc => ?_⟩
    rcases List.mem_cons.mp hc with rfl | hc
    · rw [hid]
      rfl
    · exact ih.2 c hc

/-! ## Dropped keys -/

theorem stillKey_ok {keys : List (Option UnionKeyMeta × String)} (hkeys : ∀ k ∈ keys, k.1 ≠ none)
    (columnId : Nat) : ∃ b, TableMeta.stillKey columnId keys = .ok b := by
  induction keys with
  | nil => exact ⟨false, rfl⟩
  | cons k keys ih =>
    obtain ⟨key, name⟩ := k
    cases key with
    | none => exact absurd rfl (hkeys _ (List.mem_cons_self ..))
    | some key =>
      rw [TableMeta.stillKey]
      split
      · exact ⟨true, rfl⟩
      · exact ih fun k hk => hkeys k (List.mem_cons_of_mem _ hk)

theorem withoutKey_inner {keys keys' : List (Option UnionKeyMeta × String)} (hidx : idx + 1 < keys.length)
    (h : TableMeta.withoutKey keys idx = .ok keys') : (none, "") ∈ keys' := by
  obtain ⟨behind, -, h⟩ := Exec.of_bind h
  cases h
  rw [if_pos hidx]
  simp

theorem dropKeyAt_cases (hf : Marks f) (hg : Marks g) (h : t.dropKeyAt a idx f g = .ok (a', t')) :
    Remarked t t' ∧ (a.keys.length = 1 ∧ a'.keys = [] ∨
      a.keys.length ≠ 1 ∧ TableMeta.withoutKey a.keys idx = .ok a'.keys) := by
  obtain ⟨⟨key, name⟩, -, h⟩ := Exec.of_bind h
  cases key with
  | none => cases h
  | some key =>
    dsimp only at h
    split at h
    case isTrue hone =>
      obtain ⟨t₁, hloop, h⟩ := Exec.of_bind h
      cases h
      exact ⟨foldlM_remarked (fun t c t' => modifyAt_remarked hf) hloop, .inl ⟨hone, rfl⟩⟩
    case isFalse hmore =>
      obtain ⟨keys, hkeys, h⟩ := Exec.of_bind h
      obtain ⟨t₁, hloop, h⟩ := Exec.of_bind h
      cases h
      refine ⟨foldlM_remarked (fun t c t' hturn => ?_) hloop, .inr ⟨hmore, hkeys⟩⟩
      obtain ⟨still, -, hturn⟩ := Exec.of_bind hturn
      cases still with
      | true =>
        cases hturn
        exact .refl _
      | false => exact modifyAt_remarked hg hturn

theorem dropKeyAt_last (hf : Marks f) (hg : Marks g) (hidx : idx + 1 = a.keys.length)
    (h : t.dropKeyAt a idx f g = .ok (a', t')) : Remarked t t' ∧ a'.keys = a.keys.dropLast := by
  obtain ⟨hmarks, ⟨hone, hnil⟩ | ⟨-, hkeys⟩⟩ := dropKeyAt_cases hf hg h
  · refine ⟨hmarks, ?_⟩
    rw [hnil, eq_comm, ← List.length_eq_zero_iff, List.length_dropLast, hone]
  · obtain ⟨done, k, hsplit⟩ := List.eq_nil_or_concat a.keys |>.resolve_left fun hnil => by
      rw [hnil] at hidx
      cases hidx
    have hlen : done.length = idx := by
      rw [hsplit, List.length_concat] at hidx
      omega
    rw [hsplit, ← hlen, List.concat_eq_append, withoutKey_last] at hkeys
    cases hkeys
    rw [hsplit, List.concat_eq_append, List.dropLast_concat]
    exact ⟨hmarks, rfl⟩

/-- The last key of an array can be dropped. -/
theorem dropKeyAt_ok (hf : Marks f) (hg : Marks g) (hwritten : ∀ k ∈ a.keys, k.1 ≠ none)
    (hinside : ∀ k ∈ a.keys, ∀ key ∈ k.1, ∀ c ∈ key.columnInfo, c.columnId < t.columnsCount)
    (hidx : idx + 1 = a.keys.length) : ∃ r, t.dropKeyAt a idx f g = .ok r := by
  have hlt : idx < a.keys.length := by omega
  have hget : tableAt a.keys idx = .ok a.keys[idx] := tableAt_of_getElem? (List.getElem?_eq_getElem hlt)
  have hmem : a.keys[idx] ∈ a.keys := List.getElem_mem hlt
  have hcolumns := hinside _ hmem
  have hsome := hwritten _ hmem
  unfold TableMeta.dropKeyAt
  rw [hget, Exec.ok_bind]
  generalize a.keys[idx] = k at hcolumns hsome
  obtain ⟨key, name⟩ := k
  cases key with
  | none => exact absurd rfl hsome
  | some key =>
    dsimp only
    split
    · obtain ⟨t₁, hloop, -⟩ := foldlM_ok (f := fun t c => t.modifyAt c.columnId f)
        (fun t c hc => ⟨_, modifyAt_ok hc f, remarked_modify t hf _⟩) (hcolumns key rfl)
      exact ⟨_, by rw [hloop]; rfl⟩
    · obtain ⟨done, last, hsplit⟩ := List.eq_nil_or_concat a.keys |>.resolve_left fun hnil => by
        rw [hnil] at hlt
        cases hlt
      rw [List.concat_eq_append] at hsplit
      have hlen : done.length = idx := by
        rw [hsplit, List.length_append] at hidx
        simpa using hidx.symm
      have hdone : ∀ k ∈ done, k.1 ≠ none := fun k hk => hwritten k (by rw [hsplit]; simp [hk])
      have hkeys : TableMeta.withoutKey a.keys idx = .ok done := by
        rw [hsplit, ← hlen, withoutKey_last]
      rw [hkeys, Exec.ok_bind]
      obtain ⟨t₁, hloop, -⟩ := foldlM_ok (t := t) (l := key.columnInfo) (f := fun t c => do
        if ← TableMeta.stillKey c.columnId done then return t else t.modifyAt c.columnId g)
        (fun t c hc => by
          obtain ⟨still, hstill⟩ := stillKey_ok hdone c.columnId
          rw [hstill, Exec.ok_bind]
          cases still with
          | true => exact ⟨t, rfl, .refl t⟩
          | false => exact ⟨_, modifyAt_ok hc g, remarked_modify t hg _⟩) (hcolumns key rfl)
      exact ⟨_, by rw [hloop]; rfl⟩

/-! ## Calls -/

/-- The kind of key that a call creates. -/
def KeyCall.creates : KeyCall → Option KeyType
  | .createPrimaryKey _ => some .PRIMARY_KEY
  | .addIndex _ _ keyType => some keyType
  | _ => none

/-- The number that a call gives to a new key: both kinds of `addIndex` count the indexes. -/
def TableMeta.newKeyId (t : TableMeta) : KeyType → Nat
  | .PRIMARY_KEY => 0
  | _ => t.m_indexs.keys.length

/-- What a call makes of the keys of a kind, when it drops no key but the last one of an array. -/
inductive KeyChange (t : TableMeta) (call : KeyCall) (kind : KeyType) :
    List (Option UnionKeyMeta × String) → Prop
  | create {columnIds : List Nat} {key : UnionKeyMeta} {name : String} : call.creates = some kind →
      (kind = .PRIMARY_KEY → t.m_primaryKey = none) → columnIds ≠ [] → columnIds.length < 256 →
      t.createUnionKey (t.newKeyId kind) kind columnIds = some key →
      KeyChange t call kind (t.keys kind ++ [(some key, name)])
  | dropLast : KeyChange t call kind (t.keys kind).dropLast
  | rename {i : Nat} {k : Option UnionKeyMeta × String} {newName : String} :
      (t.keys kind)[i]? = some k → KeyChange t call kind ((t.keys kind).set i (k.1, newName))
  | same : KeyChange t call kind (t.keys kind)

/-- A call changes the keys of one kind, and flags of columns. -/
structure KeyStep (t : TableMeta) (call : KeyCall) (t' : TableMeta) : Prop where
  columns : t'.m_columns.map unmarked = t.m_columns.map unmarked
  keys : ∃ kind, KeyChange t call kind (t'.keys kind) ∧
    ∀ other, other ≠ kind → t'.keys other = t.keys other

def TableMeta.keyArray (t : TableMeta) : KeyType → KeyArray
  | .PRIMARY_KEY => { keys := t.keys .PRIMARY_KEY }
  | .UNIQUE_KEY => t.m_uniqueKeys
  | .INDEX => t.m_indexs

/-- The table with another array of unique keys or indexes. -/
def TableMeta.setKeyArray (t : TableMeta) (a : KeyArray) : KeyType → TableMeta
  | .PRIMARY_KEY => t
  | .UNIQUE_KEY => { t with m_uniqueKeys := a }
  | .INDEX => { t with m_indexs := a }

theorem keys_eq_keyArray (t : TableMeta) (kind : KeyType) : t.keys kind = (t.keyArray kind).keys := by
  cases kind <;> rfl

theorem keys_setKeyArray (t : TableMeta) (a : KeyArray) {kind : KeyType} (hkind : kind ≠ .PRIMARY_KEY) :
    (t.setKeyArray a kind).keys kind = a.keys := by
  cases kind with
  | PRIMARY_KEY => exact absurd rfl hkind
  | UNIQUE_KEY => rfl
  | INDEX => rfl

theorem keys_setKeyArray_of_ne (t : TableMeta) (a : KeyArray) {kind other : KeyType}
    (hne : other ≠ kind) : (t.setKeyArray a kind).keys other = t.keys other := by
  cases kind <;> cases other <;> first | rfl | exact absurd rfl hne

theorem Remarked.withPrimaryKey (h : Remarked t t') (k : Option UnionKeyMeta) :
    Remarked { t with m_primaryKey := k } { t' with m_primaryKey := k } := by
  obtain ⟨columns, rfl, hcolumns⟩ := h
  exact ⟨columns, rfl, hcolumns⟩

theorem KeyStep.ofPrimaryKey {call : KeyCall} {k : Option UnionKeyMeta}
    (hchange : KeyChange t call .PRIMARY_KEY (k.toList.map fun k => (some k, "")))
    (hmarks : Remarked { t with m_primaryKey := k } t') : KeyStep t call t' where
  columns := hmarks.columns
  keys := by
    refine ⟨.PRIMARY_KEY, by rwa [hmarks.keys], fun other hne => ?_⟩
    rw [hmarks.keys]
    cases other with
    | PRIMARY_KEY => exact absurd rfl hne
    | UNIQUE_KEY => rfl
    | INDEX => rfl

theorem KeyStep.ofKeyArray {call : KeyCall} (kind : KeyType) (hkind : kind ≠ .PRIMARY_KEY)
    (hchange : KeyChange t call kind a.keys) (hmarks : Remarked t t') :
    KeyStep t call (t'.setKeyArray a kind) where
  columns := by
    cases kind <;> exact hmarks.columns
  keys := by
    refine ⟨kind, by rwa [keys_setKeyArray t' a hkind], fun other hne => ?_⟩
    rw [keys_setKeyArray_of_ne t' a hne, hmarks.keys]

theorem createPrimaryKey_step {columns : List String}
    (h : t.createPrimaryKey columns = .ok (0, t')) : KeyStep t (.createPrimaryKey columns) t' := by
  unfold TableMeta.createPrimaryKey at h
  split at h
  · cases h
  case isFalse hcount =>
    split at h
    · cases h
    case isFalse hnew =>
      split at h
      · cases h
      case h_2 columnIds hids =>
        split at h
        · cases h
        case h_2 key hkey =>
          obtain ⟨t₁, hloop, h⟩ := Exec.of_bind h
          cases h
          obtain ⟨hlt, hne⟩ := not_or.mp hcount
          have hlen := (List.forall₂_of_mapM_eq_some hids).length_eq
          have hnone : t.m_primaryKey = none := by simpa using hnew
          have hne' : columnIds ≠ [] := by
            rwa [ne_eq, ← List.length_eq_zero_iff, ← hlen, List.length_eq_zero_iff]
          have hchange : KeyChange t (.createPrimaryKey columns) .PRIMARY_KEY
              (t.keys .PRIMARY_KEY ++ [(some key, "")]) :=
            .create rfl (fun _ => hnone) hne' (by omega) hkey
          rw [TableMeta.keys, hnone] at hchange
          exact .ofPrimaryKey (k := some key) hchange
            (foldlM_remarked (fun t id t' => modifyAt_remarked (marks_isPrimary true)) hloop)

theorem dropPrimaryKey_step (h : t.dropPrimaryKey = .ok t') : KeyStep t .dropPrimaryKey t' := by
  have hchange : KeyChange t .dropPrimaryKey .PRIMARY_KEY (t.keys .PRIMARY_KEY).dropLast := .dropLast
  unfold TableMeta.dropPrimaryKey at h
  split at h
  case h_1 hnone =>
    cases h
    rw [TableMeta.keys, hnone] at hchange
    refine .ofPrimaryKey (k := none) hchange ?_
    rw [← hnone]
    exact .refl t
  case h_2 k hsome =>
    obtain ⟨t₁, hloop, h⟩ := Exec.of_bind h
    cases h
    have hmarks := foldlM_remarked (fun t c t' => modifyAt_remarked (marks_isPrimary false)) hloop
    rw [TableMeta.keys, hsome] at hchange
    exact .ofPrimaryKey (k := none) hchange (hmarks.withPrimaryKey none)

theorem markColumns_remarked (hmark : Marks mark) {names : List String} {ids : Option (List Nat)}
    (h : TableMeta.markColumns mark t names = .ok (ids, t')) :
    Remarked t t' ∧ ∀ columnIds ∈ ids, columnIds.length = names.length := by
  induction names generalizing t ids with
  | nil =>
    cases h
    exact ⟨.refl _, fun columnIds hids => by cases hids; rfl⟩
  | cons name names ih =>
    rw [TableMeta.markColumns] at h
    split at h
    · cases h
      exact ⟨.refl _, fun columnIds hids => nomatch hids⟩
    case h_2 i _ =>
      obtain ⟨c, -, h⟩ := Exec.of_bind h
      obtain ⟨⟨ids₁, t₁⟩, hrest, h⟩ := Exec.of_bind h
      cases h
      obtain ⟨hmarks, hlen⟩ := ih hrest
      refine ⟨(remarked_modify t hmark i).trans hmarks, fun columnIds hids => ?_⟩
      obtain ⟨rest, hrest, rfl⟩ := Option.map_eq_some_iff.mp hids
      exact congrArg (· + 1) (hlen rest hrest)

/-- What a successful `addIndex` changes of the keys. -/
theorem addIndex_step {indexName : String} {columns : List String} {keyType : KeyType}
    (h : t.addIndex indexName columns keyType = .ok (0, t')) :
    KeyStep t (.addIndex indexName columns keyType) t' := by
  unfold TableMeta.addIndex at h
  split at h
  · cases h
  case isFalse hcount =>
    split at h
    · cases h
    case h_2 column columns =>
      split at h
      · cases h
      case isFalse hkind =>
        split at h
        · cases h
        -- the columns are marked while their ids are collected; the key arrays stay
        · obtain ⟨⟨ids, t₁⟩, hmark, h⟩ := Exec.of_bind h
          have hmarks : Marks fun c : ColumnMeta =>
              if keyType = .UNIQUE_KEY then { c with m_isUnique := true }
              else { c with m_isIndex := true } := by
            intro c
            split <;> rfl
          obtain ⟨hmarked, hlen⟩ := markColumns_remarked hmarks hmark
          dsimp only at h
          split at h
          · cases h
          case h_2 columnIds =>
            obtain ⟨name, -, h⟩ := Exec.of_bind h
            have hlen := hlen columnIds rfl
            have hne : columnIds ≠ [] := by
              intro hnil
              rw [hnil] at hlen
              cases hlen
            have hlt : columnIds.length < 256 := by omega
            have hindexs : t₁.m_indexs = t.m_indexs := by
              obtain ⟨_, rfl, -⟩ := hmarked
              rfl
            rw [hindexs, hmarked.createUnionKey] at h
            split at h
            · cases h
            case h_2 key hkey =>
              -- the second loop marks the columns as indexed once more
              obtain ⟨t₂, hloop, h⟩ := Exec.of_bind h
              have hall := hmarked.trans
                (foldlM_remarked (fun t id t' => modifyAt_remarked (marks_isIndex true)) hloop)
              have hindexs : t₂.m_indexs = t.m_indexs := by
                obtain ⟨_, rfl, -⟩ := hall
                rfl
              have huniqueKeys : t₂.m_uniqueKeys = t.m_uniqueKeys := by
                obtain ⟨_, rfl, -⟩ := hall
                rfl
              have hchange (hid : t.newKeyId keyType = t.m_indexs.keys.length) :
                  KeyChange t (.addIndex indexName (column :: columns) keyType) keyType
                    (t.keys keyType ++ [(some key, name)]) :=
                .create rfl (fun hprimary => absurd hprimary hkind) hne hlt (hid ▸ hkey)
              cases keyType with
              | PRIMARY_KEY => exact absurd rfl hkind
              | UNIQUE_KEY =>
                cases h
                rw [huniqueKeys]
                exact .ofKeyArray .UNIQUE_KEY nofun (hchange rfl) hall
              | INDEX =>
                cases h
                rw [hindexs]
                exact .ofKeyArray .INDEX nofun (hchange rfl) hall

/-! ## Drops from an array -/

theorem keyCall_dropped {call : KeyCall} {kind : KeyType} (h : t.dropped call = some (kind, idx)) :
    kind ≠ .PRIMARY_KEY ∧ idx < (t.keys kind).length ∧ t.keyCall call = (do
      let (a, t') ← t.dropKeyAt (t.keyArray kind) idx (call.lastFlag kind).unflag kind.unflag
      return (0, t'.setKeyArray a kind)) := by
  have hlt {a : KeyArray} {name : String} {i : Nat} (hi : t.keyId a name = some i) : i < a.keys.length :=
    (List.findIdx?_eq_some_iff_getElem.mp hi).1
  cases call with
  | dropUniqueKey ukName =>
    obtain ⟨i, hi, heq⟩ := Option.map_eq_some_iff.mp h
    cases heq
    refine ⟨nofun, hlt hi, ?_⟩
    show t.dropUniqueKey ukName = _
    rw [TableMeta.dropUniqueKey, hi]
    rfl
  | dropIndex indexName =>
    simp only [TableMeta.dropped] at h
    cases hindex : t.keyId t.m_indexs indexName with
    | some i =>
      rw [hindex] at h
      cases h
      refine ⟨nofun, hlt hindex, ?_⟩
      show t.dropIndex indexName = _
      rw [TableMeta.dropIndex, hindex]
      rfl
    | none =>
      rw [hindex] at h
      obtain ⟨i, hi, heq⟩ := Option.map_eq_some_iff.mp h
      cases heq
      refine ⟨nofun, hlt hi, ?_⟩
      show t.dropIndex indexName = _
      rw [TableMeta.dropIndex, hindex]
      rw [hi]
      rfl
  | createPrimaryKey columns => cases h
  | dropPrimaryKey => cases h
  | addIndex indexName columns keyType => cases h
  | renameIndex oldName newName => cases h

theorem keyCall_of_dropped {call : KeyCall} {kind : KeyType} (h : t.dropped call = some (kind, idx)) :
    kind ≠ .PRIMARY_KEY ∧ idx < (t.keys kind).length ∧ ∃ f g, Marks f ∧ Marks g ∧
      t.keyCall call = (do
        let (a, t') ← t.dropKeyAt (t.keyArray kind) idx f g
        return (0, t'.setKeyArray a kind)) := by
  obtain ⟨hkind, hlt, hcall⟩ := keyCall_dropped h
  exact ⟨hkind, hlt, _, _, marks_unflag _, marks_unflag kind, hcall⟩

theorem dropped_of_ok {call : KeyCall} (hcall : ∃ name, call = .dropUniqueKey name ∨ call = .dropIndex name)
    (h : t.keyCall call = .ok (0, t')) : ∃ p, t.dropped call = some p := by
  obtain ⟨name, rfl | rfl⟩ := hcall
  · replace h : t.dropUniqueKey name = .ok (0, t') := h
    unfold TableMeta.dropUniqueKey at h
    split at h
    · cases h
    case h_2 idx hidx => exact ⟨(.UNIQUE_KEY, idx), by rw [TableMeta.dropped, hidx]; rfl⟩
  · replace h : t.dropIndex name = .ok (0, t') := h
    unfold TableMeta.dropIndex at h
    split at h
    case h_1 idx hidx => exact ⟨(.INDEX, idx), by rw [TableMeta.dropped, hidx]⟩
    case h_2 hnone =>
      split at h
      case h_1 idx hidx => exact ⟨(.UNIQUE_KEY, idx), by rw [TableMeta.dropped, hnone, hidx]; rfl⟩
      · cases h

theorem drop_step {call : KeyCall} (hcall : ∃ name, call = .dropUniqueKey name ∨ call = .dropIndex name)
    (hlast : DropsLast t call) (h : t.keyCall call = .ok (0, t')) : KeyStep t call t' := by
  obtain ⟨⟨kind, idx⟩, hdropped⟩ := dropped_of_ok hcall h
  obtain ⟨hkind, -, f, g, hf, hg, heq⟩ := keyCall_of_dropped hdropped
  rw [heq] at h
  obtain ⟨⟨a, t₁⟩, hdrop, hret⟩ := Exec.of_bind h
  cases hret
  have hlast : idx + 1 = (t.keys kind).length := hlast _ hdropped
  rw [keys_eq_keyArray] at hlast
  obtain ⟨hmarks, hkeys⟩ := dropKeyAt_last hf hg hlast hdrop
  refine .ofKeyArray _ hkind ?_ hmarks
  rw [hkeys, ← keys_eq_keyArray]
  exact .dropLast

theorem renameIndex_step {oldName newName : String}
    (h : t.renameIndex oldName newName = .ok (0, t')) : KeyStep t (.renameIndex oldName newName) t' := by
  unfold TableMeta.renameIndex at h
  split at h
  · cases h
  · split at h
    · cases h
      exact ⟨rfl, .INDEX, .same, fun _ _ => rfl⟩
    · split at h
      · cases h
      · split at h
        · cases h
        · obtain ⟨⟨key, name⟩, hget, h⟩ := Exec.of_bind h
          cases h
          have hplace : (t.keys .INDEX)[_]? = some (key, name) := getElem?_of_tableAt hget
          exact .ofKeyArray .INDEX nofun (.rename hplace) (.refl t)

theorem keyCall_step {call : KeyCall} (hlast : DropsLast t call) (h : t.keyCall call = .ok (0, t')) :
    KeyStep t call t' := by
  cases call with
  | createPrimaryKey columns => exact createPrimaryKey_step h
  | dropPrimaryKey =>
    obtain ⟨t₁, hdrop, h⟩ := Exec.of_bind h
    cases h
    exact dropPrimaryKey_step hdrop
  | addIndex indexName columns keyType => exact addIndex_step h
  | dropUniqueKey ukName => exact drop_step ⟨ukName, .inl rfl⟩ hlast h
  | dropIndex indexName => exact drop_step ⟨indexName, .inr rfl⟩ hlast h
  | renameIndex oldName newName => exact renameIndex_step h

end DBStream.Native.Meta
