import DBStream.ForStd.Except
import DBStream.Spec.KeyEdits
import DBStream.Spec.RowImage

/-!
# Edits of tables

The calls that change the columns of a table, as edits of the list of its columns.  A `Schema` is
what a table should be: the types of the columns, and the columns of each key.  `call_spec` says that
a call which is `Safe` makes the edit on the columns and on all keys.

`Safe` leaves out what the code does not do: `addColumn` updates the keys as if the new column had
replaced the one at its place, `dropColumn` leaves the indexes as they are, moves the pairs of a unique
key to the wrong byte, and drops a key of which nothing is left by its name.
-/

namespace DBStream.Native.Meta

/-- A call that changes the columns of a table. -/
inductive ColumnCall where
  | addColumn (column : ColumnMeta) (addAfter : Option String) (first : Bool)
  | dropColumn (column : String)
  | dropColumnAt (columnIndex : Nat)
  | modifyColumn (column : ColumnMeta) (first : Bool) (addAfter : Option String)
  | changeColumn (newColumn : ColumnMeta) (columnName : String) (first : Bool)
      (addAfter : Option String)
  | renameColumn (oldName newName : String)

namespace TableMeta

variable (t : TableMeta)

def call : ColumnCall → Exec (Int × TableMeta)
  | .addColumn column addAfter first => t.addColumn column addAfter first
  | .dropColumn column => t.dropColumn column
  | .dropColumnAt columnIndex => t.dropColumnAt columnIndex
  | .modifyColumn column first addAfter => t.modifyColumn column first addAfter
  | .changeColumn newColumn columnName first addAfter =>
    t.changeColumn newColumn columnName first addAfter
  | .renameColumn oldName newName => t.renameColumn oldName newName

/-- The place of the first column with a name. -/
def placeOf (name : String) : Option Nat :=
  t.m_columns.findIdx? fun c => nameEq t.caseSensitive c.m_columnName name

/-- Where a column is put that is modified. -/
def targetOf (name : String) (first : Bool) (addAfter : Option String) : Option Nat :=
  if first then some 0
  else match addAfter with
    | none => t.placeOf name
    | some after => t.placeOf after

/-- The move of a column that is modified. -/
def moveOf (name : String) (first : Bool) (addAfter : Option String) : ListEdit :=
  match t.placeOf name, t.targetOf name first addAfter with
  | some start, some dest => .move start dest
  | _, _ => .keep

def insertOf (addAfter : Option String) (first : Bool) : ListEdit :=
  match addAfter with
  | none => .insert (if first then 0 else t.columnsCount)
  | some name =>
    match t.placeOf name with
    | some place => .insert place
    | none => .keep

/-- What a call does to the columns. -/
def editOf : ColumnCall → ListEdit
  | .addColumn _ addAfter first => t.insertOf addAfter first
  | .dropColumn column =>
    match t.placeOf column with
    | some place => .erase place
    | none => .keep
  | .dropColumnAt columnIndex => .erase columnIndex
  | .modifyColumn column first addAfter => t.moveOf column.m_columnName first addAfter
  | .changeColumn _ columnName first addAfter => t.moveOf columnName first addAfter
  | .renameColumn _ _ => .keep

def keys : KeyType → List (Option UnionKeyMeta × String)
  | .PRIMARY_KEY => t.m_primaryKey.toList.map fun k => (some k, "")
  | .UNIQUE_KEY => t.m_uniqueKeys.keys
  | .INDEX => t.m_indexs.keys

/-- The places of the columns of the keys of a kind, and the names of the keys. -/
def keyColumns (kind : KeyType) : List (List Nat × String) :=
  (t.keys kind).map fun k => ((k.1.toList.flatMap fun key => key.columnInfo.map
    UniqueKeyTypePair.columnId), k.2)

end TableMeta

/-- The type that a call gives to a column. -/
def ColumnCall.newType : ColumnCall → ColumnType
  | .addColumn column _ _ | .modifyColumn column _ _ | .changeColumn column _ _ _ => column.m_columnType
  | _ => .T_UNION

/-- The edits of which the code brings the keys up to date. -/
def SafeEdit (t : TableMeta) : ListEdit → Prop
  | .insert place => t.columnsCount < 65535 ∧
      ∀ kind, ∀ k ∈ t.keyColumns kind, ∀ columnId ∈ k.1, columnId < place
  | .erase place => (∀ k ∈ t.keyColumns .INDEX, ∀ columnId ∈ k.1, columnId < place) ∧
      (∀ k ∈ t.keyColumns .UNIQUE_KEY, place ∉ k.1.dropLast) ∧
      ∀ before k behind, t.keyColumns .UNIQUE_KEY = before ++ k :: behind → k.1 = [place] →
        behind = [] ∧ ∀ other ∈ before, nameEq t.caseSensitive other.2 k.2 = false
  | _ => True

/-- A call whose edit is of this kind. -/
def Safe (t : TableMeta) (call : ColumnCall) : Prop := SafeEdit t (t.editOf call)

/-! ## Schemas -/

/-- What a table should be: the types of the columns, and the columns and names of the keys. -/
structure Schema where
  types : List ColumnType
  keys : KeyType → List (List UniqueKeyTypePair × String)

/-- Edit the columns of keys.  A key without columns is dropped. -/
def editKeys (e : ListEdit) (type : ColumnType) (ks : List (List UniqueKeyTypePair × String)) :
    List (List UniqueKeyTypePair × String) :=
  (ks.map fun k => (editPairs e type k.1, k.2)).filter fun k => !k.1.isEmpty

/-- Edit the columns, and those of the keys with them. -/
def Schema.edit (s : Schema) (e : ListEdit) (type : ColumnType) : Schema where
  types := e.apply type s.types
  keys := fun kind => editKeys e type (s.keys kind)

/-- A key has columns, and each is a column of the table with its type. -/
structure Schema.Sound (s : Schema) : Prop where
  count : s.types.length < 2 ^ 16
  nonempty : ∀ {kind k}, k ∈ s.keys kind → k.1 ≠ []
  typed : ∀ {kind k}, k ∈ s.keys kind → ∀ c ∈ k.1,
    (s.types[c.columnId]?).map ColumnType.code = some c.type

/-- All keys are written, with these columns and names. -/
def Written (keys : List (Option UnionKeyMeta × String))
    (ks : List (List UniqueKeyTypePair × String)) : Prop :=
  List.Forall₂ (fun k s => ∃ key : UnionKeyMeta, k = (some key, s.2) ∧ key.columnInfo = s.1) keys ks

/-- A table is what it should be. -/
structure TableMeta.Has (t : TableMeta) (s : Schema) : Prop where
  types : t.types = s.types
  places : ∀ i (c : ColumnMeta), t.m_columns[i]? = some c → c.m_columnIndex = i
  keys : ∀ kind, Written (t.keys kind) (s.keys kind)

variable {t t' : TableMeta} {s : Schema} {e : ListEdit} {type : ColumnType} {start dest : Nat}
  {keys : List (Option UnionKeyMeta × String)} {ks ks₁ ks₂ : List (List UniqueKeyTypePair × String)}
  {cs : List UniqueKeyTypePair}

/-! ## Keys -/

theorem editPairs_move_length : (editPairs (.move start dest) type cs).length = cs.length := by
  induction cs with
  | nil => rfl
  | cons c cs ih =>
    exact congrArg (· + 1) ih

theorem editKeys_of_nonempty (h : ∀ k ∈ ks, editPairs e type k.1 ≠ []) :
    editKeys e type ks = ks.map fun k => (editPairs e type k.1, k.2) := by
  rw [editKeys, List.filter_eq_self]
  intro k hk
  obtain ⟨k₀, hk₀, rfl⟩ := List.mem_map.mp hk
  simpa using h k₀ hk₀

theorem editKeys_of_same (h : ∀ k ∈ ks, editPairs e type k.1 = k.1) (hne : ∀ k ∈ ks, k.1 ≠ []) :
    editKeys e type ks = ks := by
  rw [editKeys_of_nonempty fun k hk => by rw [h k hk]; exact hne k hk]
  conv_rhs => rw [← List.map_id ks]
  exact List.map_congr_left fun k hk => by rw [h k hk]; rfl

theorem editKeys_append : editKeys e type (ks₁ ++ ks₂) = editKeys e type ks₁ ++ editKeys e type ks₂ := by
  simp [editKeys]

private theorem editKeys_keep (hne : ∀ k ∈ ks, k.1 ≠ []) : editKeys .keep type ks = ks := by
  refine editKeys_of_same (fun k _ => UnionKeyMeta.editPairs_of_same fun c _ => ?_) hne
  simp [editPair, ListEdit.place, ListEdit.replaces]

theorem Written.keyColumns (h : Written keys ks) :
    (keys.map fun k => ((k.1.toList.flatMap fun key => key.columnInfo.map
      UniqueKeyTypePair.columnId), k.2)) =
      ks.map fun k => (k.1.map UniqueKeyTypePair.columnId, k.2) := by
  induction h with
  | nil => rfl
  | cons hk _ ih =>
    obtain ⟨key, rfl, hkey⟩ := hk
    rw [List.map_cons, List.map_cons, ih, ← hkey]
    simp

theorem TableMeta.Has.keyColumns (h : t.Has s) (kind : KeyType) :
    t.keyColumns kind = (s.keys kind).map fun k => (k.1.map UniqueKeyTypePair.columnId, k.2) :=
  (h.keys kind).keyColumns

theorem updateKeys_spec {a a' : KeyArray} (hstart : start < 2 ^ 16)
    (hks : ∀ k ∈ ks, ∀ c ∈ k.1, c.columnId < 2 ^ 16) (hkeys : Written a.keys ks)
    (h : TableMeta.updateKeys start dest type a = .ok a') :
    Written a'.keys (ks.map fun k => (editPairs (.move start dest) type k.1, k.2)) := by
  obtain ⟨keys', hmap, hret⟩ := Exec.of_bind h
  cases hret
  replace hmap := Exec.mapM_eq_ok.mp hmap
  clear h
  generalize a.keys = keys at hkeys hmap
  induction hkeys generalizing keys' with
  | nil =>
    cases hmap
    exact .nil
  | @cons _ k _ _ hk _ ih =>
    obtain ⟨key, rfl, hkey⟩ := hk
    cases hmap with
    | cons hupdate hrest =>
      obtain ⟨key', hcolumns, hret⟩ := Exec.of_bind hupdate
      cases hret
      have hbounds : ∀ c ∈ key.columnInfo, c.columnId < 2 ^ 16 := by
        rw [hkey]
        exact hks k (List.mem_cons_self ..)
      have hkey' := UnionKeyMeta.columnUpdate_spec hstart hbounds hcolumns
      rw [hkey] at hkey'
      exact .cons ⟨key', rfl, hkey'⟩ (ih (fun k hk => hks k (List.mem_cons_of_mem _ hk)) _ hrest)

variable {k : List UniqueKeyTypePair × String}

theorem Schema.Sound.lt (hs : s.Sound) {kind : KeyType}
    (hk : k ∈ s.keys kind) {c : UniqueKeyTypePair} (hc : c ∈ k.1) : c.columnId < s.types.length := by
  have htype := hs.typed hk c hc
  obtain ⟨type, htype, -⟩ := Option.map_eq_some_iff.mp htype
  exact (List.getElem?_eq_some_iff.mp htype).1

theorem updatePrimary_eq {pk pk' : Option UnionKeyMeta}
    (h : pk.mapM (fun k => k.columnUpdate start dest type) = .ok pk') :
    TableMeta.updateKeys start dest type { keys := pk.toList.map fun k => (some k, "") } =
      .ok { keys := pk'.toList.map fun k => (some k, "") } := by
  cases pk with
  | none =>
    cases h
    rfl
  | some k =>
    obtain ⟨k', hk, hret⟩ := Exec.of_bind h
    cases hret
    simp [TableMeta.updateKeys, hk]

theorem updateKeysWhenColumnUpdate_spec (hs : s.Sound)
    (hkeys : ∀ kind, Written (t.keys kind) (s.keys kind)) (hstart : start < 2 ^ 16)
    (h : t.updateKeysWhenColumnUpdate start dest type = .ok t') :
    t'.m_columns = t.m_columns ∧ ∀ kind,
      Written (t'.keys kind) ((s.keys kind).map fun k => (editPairs (.move start dest) type k.1, k.2)) := by
  have hbounds (kind : KeyType) : ∀ k ∈ s.keys kind, ∀ c ∈ k.1, c.columnId < 2 ^ 16 :=
    fun k hk c hc => Nat.lt_trans (hs.lt hk hc) hs.count
  obtain ⟨pk, hpk, h⟩ := Exec.of_bind h
  obtain ⟨uniqueKeys, hunique, h⟩ := Exec.of_bind h
  obtain ⟨indexs, hindexs, h⟩ := Exec.of_bind h
  cases h
  refine ⟨rfl, ?_⟩
  intro kind
  cases kind with
  | PRIMARY_KEY =>
    exact updateKeys_spec hstart (hbounds _) (hkeys .PRIMARY_KEY) (updatePrimary_eq hpk)
  | UNIQUE_KEY => exact updateKeys_spec hstart (hbounds _) (hkeys .UNIQUE_KEY) hunique
  | INDEX => exact updateKeys_spec hstart (hbounds _) (hkeys .INDEX) hindexs

/-! ## Moves -/

theorem getColumn_place (hplaces : ∀ i (c : ColumnMeta), t.m_columns[i]? = some c → c.m_columnIndex = i)
    (name : String) : (t.getColumn name).map ColumnMeta.m_columnIndex = t.placeOf name := by
  rw [TableMeta.getColumn, List.find?_eq_bind_findIdx?_getElem?]
  show ((t.placeOf name).bind fun i => t.m_columns[i]?).map _ = t.placeOf name
  cases hplace : t.placeOf name with
  | none => rfl
  | some i =>
    have hlt : i < t.m_columns.length := by
      obtain ⟨hlt, -⟩ := List.findIdx?_eq_some_iff_getElem.mp hplace
      exact hlt
    have hget := List.getElem?_eq_getElem hlt
    simp only [Option.bind_some, hget, Option.map_some]
    exact congrArg some (hplaces i _ hget)

theorem withCharset_spec {c c' : ColumnMeta} (h : t.withCharset c = .ok c') :
    c'.m_columnIndex = c.m_columnIndex ∧ c'.m_columnType = c.m_columnType := by
  unfold TableMeta.withCharset at h
  split at h
  · split at h
    · obtain ⟨charset, -, h⟩ := Exec.of_bind h
      cases h
      exact ⟨rfl, rfl⟩
    · cases h
      exact ⟨rfl, rfl⟩
  · cases h
    exact ⟨rfl, rfl⟩

private theorem types_moveColumn (columns : List ColumnMeta) (c : ColumnMeta) :
    (TableMeta.moveColumn columns start dest c).map ColumnMeta.m_columnType =
      (ListEdit.move start dest).apply c.m_columnType (columns.map ColumnMeta.m_columnType) := by
  rw [ListEdit.apply, List.eraseIdx_map, ← List.map_insertIdx, TableMeta.moveColumn]
  apply List.ext_getElem?
  intro i
  rw [List.getElem?_map, List.getElem?_mapIdx, List.getElem?_map, Option.map_map]
  split <;> rfl

variable {columns : List ColumnMeta}

theorem places_moveColumn {c : ColumnMeta} (hstart : start < columns.length)
    (hdest : dest < columns.length)
    (hplaces : ∀ i (c : ColumnMeta), columns[i]? = some c → c.m_columnIndex = i) {i : Nat}
    {d : ColumnMeta} (hd : (TableMeta.moveColumn columns start dest c)[i]? = some d) :
    d.m_columnIndex = i := by
  rw [TableMeta.moveColumn, List.getElem?_mapIdx] at hd
  obtain ⟨d, hget, rfl⟩ := Option.map_eq_some_iff.mp hd
  split
  · rfl
  · -- outside of the move nothing has changed
    have hplace : (ListEdit.move start dest).place i = some i := by
      simp only [ListEdit.place]
      grind
    have happly := ListEdit.getElem?_apply (e := .move start dest) (a := c) ⟨hstart, hdest⟩ hplace
    have hne : i ≠ start := by omega
    rw [ListEdit.replaces, decide_eq_false hne] at happly
    exact hplaces i d (happly.symm.trans hget)

private theorem editKeys_move (hs : s.Sound) (kind : KeyType) :
    editKeys (.move start dest) type (s.keys kind) =
      (s.keys kind).map fun k => (editPairs (.move start dest) type k.1, k.2) := by
  refine editKeys_of_nonempty fun k hk hnil => hs.nonempty hk ?_
  rw [← List.length_eq_zero_iff, ← editPairs_move_length, hnil]
  rfl

theorem TableMeta.Has.keys_congr (h : t.Has s) (columns : List ColumnMeta) (kind : KeyType) :
    Written (({ t with m_columns := columns } : TableMeta).keys kind) (s.keys kind) := by
  cases kind with
  | PRIMARY_KEY => exact h.keys .PRIMARY_KEY
  | UNIQUE_KEY => exact h.keys .UNIQUE_KEY
  | INDEX => exact h.keys .INDEX

theorem TableMeta.Has.buildColumnOffsetList (h : t.Has s) : t.buildColumnOffsetList.Has s where
  types := h.types
  places := h.places
  keys := fun kind => by
    cases kind with
    | PRIMARY_KEY => exact h.keys .PRIMARY_KEY
    | UNIQUE_KEY => exact h.keys .UNIQUE_KEY
    | INDEX => exact h.keys .INDEX

theorem columnsCount_eq (h : t.Has s) : t.columnsCount = s.types.length := by
  rw [← h.types]
  exact (List.length_map _).symm

variable {first : Bool}

variable {addAfter : Option String}

theorem moveOf_eq (hplaces : ∀ i (c : ColumnMeta), t.m_columns[i]? = some c → c.m_columnIndex = i)
    {old : ColumnMeta} {name : String}
    (hold : t.getColumn name = some old)
    (htarget : (if first then some 0
      else match addAfter with
        | none => some old.m_columnIndex
        | some name => (t.getColumn name).map ColumnMeta.m_columnIndex) = some dest) :
    t.moveOf name first addAfter = .move old.m_columnIndex dest := by
  have hplace : t.placeOf name = some old.m_columnIndex := by
    rw [← getColumn_place hplaces, hold]
    rfl
  have hdest : t.targetOf name first addAfter = some dest := by
    rw [← htarget]
    unfold TableMeta.targetOf
    cases addAfter with
    | none => simp only [hplace]
    | some after => simp only [getColumn_place hplaces]
  rw [TableMeta.moveOf, hplace, hdest]

theorem replaceColumn_spec (h : t.Has s) (hs : s.Sound) {old column : ColumnMeta} {name : String}
    (hold : t.getColumn name = some old)
    (hcall : t.replaceColumn old column first addAfter = .ok (0, t')) :
    (t.moveOf name first addAfter).Fits s.types.length ∧
      t'.Has (s.edit (t.moveOf name first addAfter) column.m_columnType) := by
  unfold TableMeta.replaceColumn at hcall
  split at hcall
  · cases hcall
  · dsimp only at hcall
    split at hcall
    · cases hcall
    case h_2 dest htarget =>
      have hmove := moveOf_eq h.places hold htarget
      split at hcall
      · cases hcall
      case isFalse hfits =>
        obtain ⟨c, hc, hcall⟩ := Exec.of_bind hcall
        obtain ⟨t₁, hupdate, hcall⟩ := Exec.of_bind hcall
        cases hcall
        obtain ⟨hstart, hdestLt⟩ := not_or.mp hfits
        have hcount := hs.count
        rw [← columnsCount_eq h] at hcount
        have hkeys₀ (kind : KeyType) := h.keys_congr (TableMeta.moveColumn t.m_columns
          old.m_columnIndex dest c) kind
        obtain ⟨hcolumns, hkeys⟩ := updateKeysWhenColumnUpdate_spec hs hkeys₀ (by omega) hupdate
        rw [hmove, ← columnsCount_eq h]
        refine ⟨⟨by omega, by omega⟩, TableMeta.Has.buildColumnOffsetList ⟨?_, ?_, ?_⟩⟩
        · rw [TableMeta.types, hcolumns, types_moveColumn, (withCharset_spec hc).2, Schema.edit, ← h.types]
          rfl
        · intro i d hd
          rw [hcolumns] at hd
          exact places_moveColumn (Nat.not_le.mp hstart) (Nat.not_le.mp hdestLt) h.places hd
        · intro kind
          show Written (t₁.keys kind) (editKeys _ _ (s.keys kind))
          rw [editKeys_move hs]
          exact hkeys kind

theorem modifyColumn_spec (h : t.Has s) (hs : s.Sound) {column : ColumnMeta}
    (hcall : t.modifyColumn column first addAfter = .ok (0, t')) :
    (t.moveOf column.m_columnName first addAfter).Fits s.types.length ∧
      t'.Has (s.edit (t.moveOf column.m_columnName first addAfter) column.m_columnType) := by
  unfold TableMeta.modifyColumn at hcall
  split at hcall
  · cases hcall
  case h_2 old hold => exact replaceColumn_spec h hs hold hcall

theorem changeColumn_spec (h : t.Has s) (hs : s.Sound) {newColumn : ColumnMeta} {columnName : String}
    (hcall : t.changeColumn newColumn columnName first addAfter = .ok (0, t')) :
    (t.moveOf columnName first addAfter).Fits s.types.length ∧
      t'.Has (s.edit (t.moveOf columnName first addAfter) newColumn.m_columnType) := by
  unfold TableMeta.changeColumn at hcall
  split at hcall
  · cases hcall
  case h_2 old hold =>
    split at hcall
    · cases hcall
    · exact replaceColumn_spec h hs hold hcall

/-! ## Names -/

theorem getElem?_modify_of_same {α β : Type} {g : α → β} {f : α → α} (hf : ∀ a, g (f a) = g a)
    {l : List α} {n i : Nat} {a : α} (ha : (l.modify n f)[i]? = some a) :
    ∃ a₀, l[i]? = some a₀ ∧ g a = g a₀ := by
  rw [List.getElem?_modify] at ha
  obtain ⟨a₀, ha₀, rfl⟩ := Option.map_eq_some_iff.mp ha
  refine ⟨a₀, ha₀, ?_⟩
  split
  · exact hf a₀
  · rfl

theorem map_modify_of_same {α β : Type} {g : α → β} {f : α → α} (hf : ∀ a, g (f a) = g a)
    {l : List α} {n : Nat} : (l.modify n f).map g = l.map g := by
  apply List.ext_getElem?
  intro i
  cases hget : (l.modify n f)[i]? with
  | none =>
    have hlen := List.getElem?_eq_none_iff.mp hget
    rw [List.length_modify] at hlen
    simp [hlen]
  | some a =>
    obtain ⟨a₀, ha₀, hsame⟩ := getElem?_modify_of_same hf hget
    simp [hget, ha₀, hsame]

theorem renameColumn_spec (h : t.Has s) (hs : s.Sound) {oldName newName : String}
    (hcall : t.renameColumn oldName newName = .ok (0, t')) : t'.Has (s.edit .keep type) := by
  unfold TableMeta.renameColumn at hcall
  split at hcall
  · cases hcall
  case h_2 c hc =>
    split at hcall
    · cases hcall
    · split at hcall
      · cases hcall
      · cases hcall
        refine ⟨?_, ?_, ?_⟩
        · refine Eq.trans (map_modify_of_same ?_) h.types
          intro d
          rfl
        · intro i d hd
          obtain ⟨d₀, hd₀, hindex⟩ := getElem?_modify_of_same (g := ColumnMeta.m_columnIndex)
            (f := fun c => { c with m_columnName := newName }) (fun _ => rfl) hd
          exact hindex.trans (h.places i d₀ hd₀)
        · intro kind
          show Written _ (editKeys .keep type (s.keys kind))
          rw [editKeys_keep fun k hk => hs.nonempty hk]
          exact h.keys_congr _ kind

/-! ## New columns -/

theorem editKeys_insert {place : Nat} (hs : s.Sound) (type : ColumnType) {kind : KeyType}
    (hsafe : ∀ k ∈ s.keys kind, ∀ c ∈ k.1, c.columnId < place) :
    editKeys (.insert place) type (s.keys kind) = s.keys kind ∧
      (s.keys kind).map (fun k => (editPairs (.move place place) type k.1, k.2)) = s.keys kind := by
  constructor
  · exact editKeys_of_same (fun k hk => UnionKeyMeta.editPairs_insert (hsafe k hk))
      fun k hk => hs.nonempty hk
  · conv_rhs => rw [← List.map_id (s.keys kind)]
    refine List.map_congr_left fun k hk => ?_
    rw [UnionKeyMeta.editPairs_move_self (hsafe k hk)]
    rfl

/-- The columns with a new one at `place`. -/
def withColumn (columns : List ColumnMeta) (place : Nat) (c : ColumnMeta) : List ColumnMeta :=
  columns.take place ++ c :: (columns.drop place).map fun d =>
    { d with m_columnIndex := (d.m_columnIndex + 1) % 2 ^ 16 }

theorem types_withColumn {place : Nat} (hplace : place ≤ columns.length)
    (c : ColumnMeta) : (withColumn columns place c).map ColumnMeta.m_columnType =
      (ListEdit.insert place).apply c.m_columnType (columns.map ColumnMeta.m_columnType) := by
  rw [ListEdit.apply, ← List.map_insertIdx]
  induction columns generalizing place with
  | nil =>
    cases Nat.le_zero.mp hplace
    rfl
  | cons d columns ih =>
    cases place with
    | zero => simp [withColumn]
    | succ place => exact congrArg (d.m_columnType :: ·) (ih (Nat.le_of_succ_le_succ hplace))

theorem places_withColumn {place : Nat} {c : ColumnMeta}
    (hplace : place ≤ columns.length) (hc : c.m_columnIndex = place) (hcount : columns.length < 65535)
    (hplaces : ∀ i (c : ColumnMeta), columns[i]? = some c → c.m_columnIndex = i) {i : Nat}
    {d : ColumnMeta} (hd : (withColumn columns place c)[i]? = some d) : d.m_columnIndex = i := by
  have hlen : (columns.take place).length = place := List.length_take_of_le hplace
  obtain hlt | rfl | hgt := Nat.lt_trichotomy i place
  · rw [withColumn, List.getElem?_append_left (by omega), List.getElem?_take_of_lt hlt] at hd
    exact hplaces i d hd
  · rw [withColumn, List.getElem?_append_right (by omega), hlen, Nat.sub_self] at hd
    cases hd
    exact hc
  · obtain ⟨j, rfl⟩ := Nat.exists_eq_add_of_lt hgt
    rw [withColumn, List.getElem?_append_right (by omega), hlen, show place + j + 1 - place = j + 1 by omega,
      List.getElem?_cons_succ, List.getElem?_map, List.getElem?_drop] at hd
    obtain ⟨d₀, hd₀, rfl⟩ := Option.map_eq_some_iff.mp hd
    have hlt := (List.getElem?_eq_some_iff.mp hd₀).1
    rw [hplaces _ d₀ hd₀, Nat.mod_eq_of_lt (by omega)]

theorem insertOf_eq (h : t.Has s) {place : Nat}
    (hplace : t.addPlace addAfter first = some place) : t.insertOf addAfter first = .insert place := by
  unfold TableMeta.insertOf
  cases addAfter with
  | none => exact congrArg ListEdit.insert (Option.some.inj hplace)
  | some name =>
    have hname : t.placeOf name = some place := by
      rw [← getColumn_place h.places]
      exact hplace
    simp only [hname]

/-- A column is added: the columns and the keys of the table are edited at one place. -/
theorem addColumn_spec (h : t.Has s) (hs : s.Sound) {column : ColumnMeta}
    (hsafe : SafeEdit t (t.insertOf addAfter first))
    (hcall : t.addColumn column addAfter first = .ok (0, t')) :
    (t.insertOf addAfter first).Fits s.types.length ∧
      t'.Has (s.edit (t.insertOf addAfter first) column.m_columnType) := by
  unfold TableMeta.addColumn at hcall
  split at hcall
  · cases hcall
  · split at hcall
    · cases hcall
    case h_2 place hplace =>
      split at hcall
      · cases hcall
      case isFalse hle =>
        obtain ⟨c, hc, hcall⟩ := Exec.of_bind hcall
        rw [insertOf_eq h hplace] at hsafe ⊢
        obtain ⟨hcount, hbefore⟩ := hsafe
        have hplaceLe : place ≤ t.m_columns.length := Nat.not_lt.mp hle
        have hlen : (withColumn t.m_columns place c).length = t.columnsCount + 1 := by
          simp [withColumn, TableMeta.columnsCount]
          omega
        have hall : (withColumn t.m_columns place c).take ((t.columnsCount + 1) % 2 ^ 16) =
            withColumn t.m_columns place c := by
          rw [Nat.mod_eq_of_lt (by omega), ← hlen, List.take_length]
        have hfront (kind : KeyType) : ∀ k ∈ s.keys kind, ∀ c ∈ k.1, c.columnId < place := by
          intro k hk d hd
          have hk' : (k.1.map UniqueKeyTypePair.columnId, k.2) ∈ t.keyColumns kind := by
            rw [h.keyColumns]
            exact List.mem_map_of_mem hk
          exact hbefore kind _ hk' _ (List.mem_map_of_mem hd)
        -- with and without the update the keys stay as they are
        have hend : ∃ t₁ : TableMeta, t' = t₁.buildColumnOffsetList ∧
            t₁.m_columns = withColumn t.m_columns place c ∧
              ∀ kind, Written (t₁.keys kind) (s.keys kind) := by
          dsimp only at hcall
          have hkeys₀ (kind : KeyType) := h.keys_congr ((withColumn t.m_columns place c).take
            ((t.columnsCount + 1) % 2 ^ 16)) kind
          split at hcall
          · cases hcall
            exact ⟨_, rfl, hall, hkeys₀⟩
          · obtain ⟨t₁, hupdate, hcall⟩ := Exec.of_bind hcall
            cases hcall
            obtain ⟨hcolumns, hkeys⟩ := updateKeysWhenColumnUpdate_spec hs hkeys₀ (by omega) hupdate
            refine ⟨t₁, rfl, hcolumns.trans hall, fun kind => ?_⟩
            rw [← (editKeys_insert hs column.m_columnType (hfront kind)).2]
            exact hkeys kind
        obtain ⟨t₁, rfl, hcolumns, hkeys⟩ := hend
        rw [← columnsCount_eq h]
        refine ⟨hplaceLe, TableMeta.Has.buildColumnOffsetList ⟨?_, ?_, ?_⟩⟩
        · rw [TableMeta.types, hcolumns, types_withColumn hplaceLe, (withCharset_spec hc).2, Schema.edit,
            ← h.types]
          rfl
        · intro i d hd
          rw [hcolumns] at hd
          exact places_withColumn hplaceLe (withCharset_spec hc).1 hcount h.places hd
        · intro kind
          show Written (t₁.keys kind) (editKeys _ _ (s.keys kind))
          rw [(editKeys_insert hs column.m_columnType (hfront kind)).1]
          exact hkeys kind

/-! ## Drops -/

variable {p : Nat}

theorem nameEq_self (caseSensitive : Bool) (name : String) : nameEq caseSensitive name name = true := by
  simp [nameEq]

variable {a : KeyArray}

variable {done : List (Option UnionKeyMeta × String)}

theorem keyId_last
    {key : Option UnionKeyMeta} {name : String} (ha : a.keys = done ++ [(key, name)])
    (hnames : ∀ other ∈ done, nameEq t.caseSensitive other.2 name = false) :
    t.keyId a name = some done.length := by
  have hnone : done.findIdx? (fun k => nameEq t.caseSensitive k.2 name) = none := by
    rw [List.findIdx?_eq_none_iff]
    exact hnames
  rw [TableMeta.keyId, ha, List.findIdx?_append, hnone]
  simp [nameEq_self]

theorem withoutKey_last
    {k : Option UnionKeyMeta × String} :
    TableMeta.withoutKey (done ++ [k]) done.length = .ok done := by
  have hdrop : (done ++ [k]).drop (done.length + 1) = [] := List.drop_of_length_le (by simp)
  have hlast : ¬done.length + 1 < (done ++ [k]).length := by simp
  unfold TableMeta.withoutKey
  rw [hdrop, if_neg hlast, List.take_left]
  simp

theorem dropUniqueKey_last
    {key : UnionKeyMeta} {name : String} (ha : a.keys = done ++ [(some key, name)])
    (hkey : key.columnInfo = [])
    (hnames : ∀ other ∈ done, nameEq t.caseSensitive other.2 name = false) :
    ∃ freed, ({ t with m_uniqueKeys := a } : TableMeta).dropUniqueKey name =
      .ok (0, { t with m_uniqueKeys := { keys := done, freed := freed } }) := by
  have hid : ({ t with m_uniqueKeys := a } : TableMeta).keyId a name = some done.length :=
    keyId_last (t := { t with m_uniqueKeys := a }) ha hnames
  have hget : tableAt (done ++ [(some key, name)]) done.length = .ok (some key, name) :=
    tableAt_of_getElem? List.getElem?_concat_length
  unfold TableMeta.dropUniqueKey
  rw [hid]
  dsimp only
  unfold TableMeta.dropKeyAt
  rw [ha, hget, Exec.ok_bind]
  dsimp only
  rw [hkey]
  by_cases hone : (done ++ [(some key, name)]).length = 1
  · have hnil : done = [] := by simpa using hone
    subst hnil
    exact ⟨true, by rw [if_pos hone]; rfl⟩
  · exact ⟨false, by rw [if_neg hone, withoutKey_last]; rfl⟩

theorem Written.append {keys₁ keys₂ : List (Option UnionKeyMeta × String)} (h₁ : Written keys₁ ks₁)
    (h₂ : Written keys₂ ks₂) : Written (keys₁ ++ keys₂) (ks₁ ++ ks₂) := List.rel_append h₁ h₂

theorem Written.split (h : Written keys (ks₁ ++ k :: ks₂)) :
    ∃ keys₁ key keys₂, keys = keys₁ ++ (some key, k.2) :: keys₂ ∧ Written keys₁ ks₁ ∧
      key.columnInfo = k.1 ∧ Written keys₂ ks₂ := by
  induction ks₁ generalizing keys with
  | nil =>
    cases h with
    | cons hk hrest =>
      obtain ⟨key, rfl, hkey⟩ := hk
      exact ⟨[], key, _, rfl, .nil, hkey, hrest⟩
  | cons k₁ ks₁ ih =>
    cases h with
    | cons hk hrest =>
      obtain ⟨keys₁, key, keys₂, rfl, h₁, hkey, h₂⟩ := ih hrest
      exact ⟨_ :: keys₁, key, keys₂, rfl, .cons hk h₁, hkey, h₂⟩

theorem editPairs_erase_eq_nil (hne : cs ≠ []) (hlast : ∀ c ∈ cs.dropLast, c.columnId ≠ p)
    (h : editPairs (.erase p) type cs = []) : cs.map UniqueKeyTypePair.columnId = [p] := by
  have hall : ∀ c ∈ cs, c.columnId = p := by
    intro c hc
    have hnone := List.filterMap_eq_nil_iff.mp h c hc
    simp only [editPair, Option.map_eq_none_iff, ListEdit.place] at hnone
    grind
  rcases cs with - | ⟨c, - | ⟨d, cs⟩⟩
  · exact absurd rfl hne
  · simp [hall c]
  · exact absurd (hall c (List.mem_cons_self ..)) (hlast c (List.mem_cons_self ..))

/-- The unique keys of which `dropColumn` keeps track. -/
structure UniqueSafe (t : TableMeta) (p : Nat) (ks : List (List UniqueKeyTypePair × String)) : Prop where
  nonempty : ∀ k ∈ ks, k.1 ≠ []
  last : ∀ k ∈ ks, ∀ c ∈ k.1.dropLast, c.columnId ≠ p
  only : ∀ before k behind, ks = before ++ k :: behind → k.1.map UniqueKeyTypePair.columnId = [p] →
    behind = [] ∧ ∀ other ∈ before, nameEq t.caseSensitive other.2 k.2 = false

/-- A turn of the loop over the unique keys. -/
def dropFromUniqueKey (p : Nat) (t : TableMeta) (idx : Nat) : Exec TableMeta :=
  match t.m_uniqueKeys.keys[idx]? with
  | none => .ok t
  | some (none, _) => .error .uninitialized
  | some (some k, name) => do
    let k ← k.dropColumn UnionKeyMeta.removeFromUnique p
    let t := { t with m_uniqueKeys := { t.m_uniqueKeys with
      keys := t.m_uniqueKeys.keys.set idx (some k, name) } }
    if k.columnInfo = [] then do
      let (_, t) ← t.dropUniqueKey name
      return t
    else return t

theorem dropFromUniqueKeys_eq (t : TableMeta) (p : Nat) : t.dropFromUniqueKeys p =
    (List.range t.m_uniqueKeys.keys.length).foldlM (dropFromUniqueKey p) t := rfl

/-- The keys while the loop runs: those before `ks₂` are done, and only the last one may be gone. -/
structure UniqueLoop (p : Nat) (type : ColumnType) (ks₁ ks₂ : List (List UniqueKeyTypePair × String))
    (a : KeyArray) : Prop where
  keys : Written a.keys (editKeys (.erase p) type ks₁ ++ ks₂)
  full : ks₂ ≠ [] → (editKeys (.erase p) type ks₁).length = ks₁.length

theorem mem_editKeys (h : k ∈ editKeys e type ks) :
    ∃ k₀ ∈ ks, k.2 = k₀.2 := by
  obtain ⟨hmem, -⟩ := List.mem_filter.mp h
  obtain ⟨k₀, hk₀, rfl⟩ := List.mem_map.mp hmem
  exact ⟨k₀, hk₀, rfl⟩

theorem Written.mem_name (h : Written keys ks) {k : Option UnionKeyMeta × String} (hk : k ∈ keys) :
    ∃ k₀ ∈ ks, k.2 = k₀.2 := by
  obtain ⟨i, hi, rfl⟩ := List.getElem_of_mem hk
  obtain ⟨key, hkey, -⟩ := List.Forall₂.get h hi (h.length_eq ▸ hi)
  exact ⟨ks.get ⟨i, h.length_eq ▸ hi⟩, List.get_mem .., congrArg Prod.snd hkey⟩

/-- A turn of the loop over the unique keys: the key stays with less columns, or is dropped. -/
theorem dropFromUniqueKey_cases
    (hsafe : UniqueSafe t p (ks₁ ++ k :: ks₂)) (hloop : UniqueLoop p type ks₁ (k :: ks₂) a)
    (h : dropFromUniqueKey p { t with m_uniqueKeys := a } ks₁.length = .ok t') :
    ∃ keys₁ key keys₂ key', a.keys = keys₁ ++ (some key, k.2) :: keys₂ ∧
      Written keys₁ (editKeys (.erase p) type ks₁) ∧ key.columnInfo = k.1 ∧ Written keys₂ ks₂ ∧
      key.dropColumn UnionKeyMeta.removeFromUnique p = .ok key' ∧
      key'.columnInfo = editPairs (.erase p) type k.1 ∧
      (key'.columnInfo = [] ∧ ks₂ = [] ∧
          (∃ freed, t' = { t with m_uniqueKeys := { keys := keys₁, freed := freed } }) ∨
        key'.columnInfo ≠ [] ∧
          t' = { t with m_uniqueKeys := { a with keys := keys₁ ++ (some key', k.2) :: keys₂ } }) := by
  have hmem : k ∈ ks₁ ++ k :: ks₂ := by simp
  obtain ⟨keys₁, key, keys₂, hsplit, hkeys₁, hkey, hkeys₂⟩ := hloop.keys.split
  have hlen : keys₁.length = ks₁.length := by
    rw [hkeys₁.length_eq, hloop.full (by simp)]
  have hget : a.keys[ks₁.length]? = some (some key, k.2) := by
    rw [hsplit, ← hlen]
    simp
  unfold dropFromUniqueKey at h
  dsimp only at h
  rw [hget] at h
  obtain ⟨key', hdrop, h⟩ := Exec.of_bind h
  have hkey' : key'.columnInfo = editPairs (.erase p) type k.1 := by
    rw [← hkey]
    refine UnionKeyMeta.dropColumn_spec (UnionKeyMeta.removes_unique p) ?_ hdrop
    rw [hkey]
    exact hsafe.last k hmem
  have hset : a.keys.set ks₁.length (some key', k.2) = keys₁ ++ (some key', k.2) :: keys₂ := by
    rw [hsplit, ← hlen]
    simp
  rw [hset] at h
  refine ⟨keys₁, key, keys₂, key', hsplit, hkeys₁, hkey, hkeys₂, hdrop, hkey', ?_⟩
  split at h
  case isTrue hnil =>
    -- nothing is left of the key, so it is the last one
    have honly : k.1.map UniqueKeyTypePair.columnId = [p] :=
      editPairs_erase_eq_nil (hsafe.nonempty k hmem) (hsafe.last k hmem) (hkey'.symm.trans hnil)
    obtain ⟨rfl, hnames⟩ := hsafe.only ks₁ k ks₂ rfl honly
    cases hkeys₂
    have hothers : ∀ other ∈ keys₁, nameEq t.caseSensitive other.2 k.2 = false := by
      intro other hother
      obtain ⟨k₁, hk₁, hname⟩ := hkeys₁.mem_name hother
      obtain ⟨k₀, hk₀, hname₀⟩ := mem_editKeys hk₁
      rw [hname, hname₀]
      exact hnames k₀ hk₀
    obtain ⟨freed, hdropped⟩ := dropUniqueKey_last (t := t)
      (a := { a with keys := keys₁ ++ [(some key', k.2)] }) rfl hnil hothers
    rw [hdropped] at h
    cases h
    exact .inl ⟨hnil, rfl, freed, rfl⟩
  case isFalse hne =>
    cases h
    exact .inr ⟨hne, rfl⟩

theorem dropFromUniqueKey_spec
    (hsafe : UniqueSafe t p (ks₁ ++ k :: ks₂)) (hloop : UniqueLoop p type ks₁ (k :: ks₂) a)
    (h : dropFromUniqueKey p { t with m_uniqueKeys := a } ks₁.length = .ok t') :
    ∃ a', t' = { t with m_uniqueKeys := a' } ∧ UniqueLoop p type (ks₁ ++ [k]) ks₂ a' := by
  obtain ⟨keys₁, key, keys₂, key', -, hkeys₁, -, hkeys₂, -, hkey', hend⟩ :=
    dropFromUniqueKey_cases hsafe hloop h
  rcases hend with ⟨hnil, rfl, freed, rfl⟩ | ⟨hne, rfl⟩
  · have hedit : editKeys (.erase p) type [k] = [] := by
      simp [editKeys, ← hkey', hnil]
    refine ⟨_, rfl, ?_, fun h => absurd rfl h⟩
    rw [editKeys_append, hedit, List.append_nil, List.append_nil]
    exact hkeys₁
  · have hedit : editKeys (.erase p) type [k] = [(editPairs (.erase p) type k.1, k.2)] :=
      editKeys_of_nonempty fun k' hk' => by
        cases List.mem_singleton.mp hk'
        rwa [← hkey']
    refine ⟨_, rfl, ?_, ?_⟩
    · rw [editKeys_append, hedit, List.append_assoc]
      exact hkeys₁.append (.cons ⟨key', rfl, hkey'⟩ hkeys₂)
    · intro _
      rw [editKeys_append, hedit, List.length_append, List.length_append, hloop.full (by simp)]
      rfl

theorem dropFromUniqueKeys_rule (Inv : Nat → KeyArray → Prop) (h₀ : Inv 0 t.m_uniqueKeys)
    (hturn : ∀ i a t', i < t.m_uniqueKeys.keys.length → Inv i a →
      dropFromUniqueKey p { t with m_uniqueKeys := a } i = .ok t' →
        ∃ a', t' = { t with m_uniqueKeys := a' } ∧ Inv (i + 1) a')
    (h : t.dropFromUniqueKeys p = .ok t') :
    ∃ a, t' = { t with m_uniqueKeys := a } ∧ Inv t.m_uniqueKeys.keys.length a := by
  have hpost : Except.Post (t.dropFromUniqueKeys p) (fun t' => ∃ a, t' = { t with m_uniqueKeys := a } ∧
      Inv (List.range t.m_uniqueKeys.keys.length).length a) fun _ => True := by
    rw [dropFromUniqueKeys_eq]
    refine Except.Post.foldlM (fun done t' => ∃ a, t' = { t with m_uniqueKeys := a } ∧
      Inv done.length a) ⟨t.m_uniqueKeys, rfl, h₀⟩ ?_
    rintro done i rest _ hrange ⟨a, rfl, hinv⟩
    have hget : (List.range t.m_uniqueKeys.keys.length)[done.length]? = some i := by
      rw [hrange]
      simp
    obtain ⟨hlt, hi⟩ := List.getElem?_eq_some_iff.mp hget
    rw [List.getElem_range] at hi
    rw [List.length_range] at hlt
    cases hdrop : dropFromUniqueKey p { t with m_uniqueKeys := a } i with
    | error e => trivial
    | ok t₁ =>
      rw [← hi] at hdrop
      obtain ⟨a', rfl, hinv'⟩ := hturn done.length a t₁ hlt hinv hdrop
      refine ⟨a', rfl, ?_⟩
      rwa [List.length_append, List.length_singleton]
  rw [h, List.length_range] at hpost
  exact hpost

theorem UniqueLoop.of_written (hkeys : Written t.m_uniqueKeys.keys ks) :
    UniqueLoop p type (ks.take 0) (ks.drop 0) t.m_uniqueKeys := ⟨hkeys, fun _ => rfl⟩

theorem UniqueLoop.turn {i : Nat} (hi : i < ks.length)
    (hloop : UniqueLoop p type (ks.take i) (ks.drop i) a) :
    UniqueLoop p type (ks.take i) (ks[i] :: ks.drop (i + 1)) a ∧
      ks.take i ++ ks[i] :: ks.drop (i + 1) = ks ∧ (ks.take i).length = i ∧
        ks.take i ++ [ks[i]] = ks.take (i + 1) := by
  have hdrop : ks.drop i = ks[i] :: ks.drop (i + 1) := List.drop_eq_getElem_cons hi
  refine ⟨hdrop ▸ hloop, ?_, List.length_take_of_le (Nat.le_of_lt hi), ?_⟩
  · rw [← hdrop, List.take_append_drop]
  · rw [List.take_add_one, List.getElem?_eq_getElem hi]
    rfl

theorem dropFromUniqueKeys_spec (hsafe : UniqueSafe t p ks) (hkeys : Written t.m_uniqueKeys.keys ks)
    (h : t.dropFromUniqueKeys p = .ok t') : ∃ a, t' = { t with m_uniqueKeys := a } ∧
      Written a.keys (editKeys (.erase p) type ks) := by
  have hlen : t.m_uniqueKeys.keys.length = ks.length := hkeys.length_eq
  obtain ⟨a, rfl, hloop⟩ := dropFromUniqueKeys_rule
    (fun i a => UniqueLoop p type (ks.take i) (ks.drop i) a) (.of_written hkeys) (by
      intro i a t' hi hinv hdrop
      rw [hlen] at hi
      obtain ⟨hloop, hall, hi', hnext⟩ := hinv.turn hi
      rw [← hi'] at hdrop
      rw [← hnext]
      exact dropFromUniqueKey_spec (by rwa [hall]) hloop hdrop) h
  refine ⟨a, rfl, ?_⟩
  have hkeys := hloop.keys
  rwa [hlen, List.take_length, List.drop_length, List.append_nil] at hkeys

/-- The primary key after the column is dropped from it. -/
theorem dropFromPrimaryKey_spec (hne : ∀ k ∈ ks, k.1 ≠ []) (hkeys : Written (t.keys .PRIMARY_KEY) ks)
    (h : t.dropFromPrimaryKey p = .ok t') : ∃ pk, t' = { t with m_primaryKey := pk } ∧
      Written (t'.keys .PRIMARY_KEY) (editKeys (.erase p) type ks) := by
  have hkeys : Written (t.m_primaryKey.toList.map fun k => (some k, "")) ks := hkeys
  unfold TableMeta.dropFromPrimaryKey at h
  cases hold : t.m_primaryKey with
  | none =>
    rw [hold] at h hkeys
    cases h
    cases hkeys
    refine ⟨none, by rw [← hold], ?_⟩
    show Written (t.m_primaryKey.toList.map fun k => (some k, "")) _
    rw [hold]
    exact .nil
  | some key =>
    rw [hold] at h hkeys
    obtain ⟨key', hdrop, h⟩ := Exec.of_bind h
    have hkey' : key'.columnInfo = editPairs (.erase p) type key.columnInfo :=
      UnionKeyMeta.dropColumn_spec (UnionKeyMeta.removes_primary p) trivial hdrop
    cases hkeys with
    | @cons _ k _ _ hk hrest =>
      obtain ⟨_, hwritten, hkey⟩ := hk
      cases hrest
      obtain ⟨hsame, hname⟩ := Prod.mk.inj hwritten
      cases hsame
      rw [hkey] at hkey'
      split at h
      case isTrue hnil =>
        have hdropped : TableMeta.dropPrimaryKey { t with m_primaryKey := some key' } =
            .ok { t with m_primaryKey := none } := by
          simp only [TableMeta.dropPrimaryKey, hnil]
          rfl
        rw [hdropped] at h
        cases h
        have hedit : editKeys (.erase p) type [k] = [] := by
          simp [editKeys, ← hkey', hnil]
        refine ⟨none, rfl, ?_⟩
        rw [hedit]
        exact .nil
      case isFalse hleft =>
        cases h
        have hedit : editKeys (.erase p) type [k] = [(editPairs (.erase p) type k.1, k.2)] :=
          editKeys_of_nonempty fun k' hk' => by
            cases List.mem_singleton.mp hk'
            rwa [← hkey']
        refine ⟨some key', rfl, ?_⟩
        rw [hedit]
        exact .cons ⟨key', by rw [← hname], hkey'⟩ .nil

/-- The columns without the one at `place`. -/
def withoutColumn (columns : List ColumnMeta) (place : Nat) : List ColumnMeta :=
  columns.take place ++ (columns.drop (place + 1)).map fun c =>
    { c with m_columnIndex := sub16 c.m_columnIndex 1 }

theorem types_withoutColumn (columns : List ColumnMeta) (type : ColumnType) :
    (withoutColumn columns p).map ColumnMeta.m_columnType =
      (ListEdit.erase p).apply type (columns.map ColumnMeta.m_columnType) := by
  rw [ListEdit.apply, List.eraseIdx_eq_take_drop_succ]
  simp [withoutColumn, List.map_take, List.map_drop]
  rfl

theorem places_withoutColumn (hp : p < columns.length)
    (hcount : columns.length < 2 ^ 16)
    (hplaces : ∀ i (c : ColumnMeta), columns[i]? = some c → c.m_columnIndex = i) {i : Nat}
    {d : ColumnMeta} (hd : (withoutColumn columns p)[i]? = some d) : d.m_columnIndex = i := by
  have hlen : (columns.take p).length = p := List.length_take_of_le (Nat.le_of_lt hp)
  obtain hlt | hge := Nat.lt_or_ge i p
  · rw [withoutColumn, List.getElem?_append_left (by omega), List.getElem?_take_of_lt hlt] at hd
    exact hplaces i d hd
  · rw [withoutColumn, List.getElem?_append_right (by omega), hlen, List.getElem?_map,
      List.getElem?_drop] at hd
    obtain ⟨d₀, hd₀, rfl⟩ := Option.map_eq_some_iff.mp hd
    have hlt := (List.getElem?_eq_some_iff.mp hd₀).1
    show sub16 d₀.m_columnIndex 1 = i
    rw [hplaces _ d₀ hd₀, UnionKeyMeta.sub16_one (by omega) (by omega)]
    omega

theorem uniqueSafe_of_safe (h : t.Has s) (hs : s.Sound) (hsafe : SafeEdit t (.erase p)) :
    UniqueSafe t p (s.keys .UNIQUE_KEY) := by
  obtain ⟨-, hlast, honly⟩ := hsafe
  rw [h.keyColumns] at hlast honly
  refine ⟨fun k hk => hs.nonempty hk, ?_, ?_⟩
  · intro k hk c hc heq
    refine hlast _ (List.mem_map_of_mem hk) ?_
    rw [← heq, ← List.map_dropLast]
    exact List.mem_map_of_mem hc
  · intro before k behind hsplit hk
    have hmap := congrArg (List.map fun k => (k.1.map UniqueKeyTypePair.columnId, k.2)) hsplit
    rw [List.map_append, List.map_cons] at hmap
    obtain ⟨hbehind, hnames⟩ := honly _ _ _ hmap hk
    refine ⟨List.map_eq_nil_iff.mp hbehind, fun other hother => ?_⟩
    exact hnames _ (List.mem_map_of_mem hother)

theorem dropColumnAt_spec (h : t.Has s) (hs : s.Sound) (hsafe : SafeEdit t (.erase p))
    (hcall : t.dropColumnAt p = .ok (0, t')) :
    (ListEdit.erase p).Fits s.types.length ∧ t'.Has (s.edit (.erase p) type) := by
  have hcount := hs.count
  rw [← columnsCount_eq h] at hcount ⊢
  have hindex : ∀ k ∈ s.keys .INDEX, editPairs (.erase p) type k.1 = k.1 := by
    have hbefore := hsafe.1
    rw [h.keyColumns] at hbefore
    exact fun k hk => UnionKeyMeta.editPairs_erase_before fun c hc =>
      hbefore _ (List.mem_map_of_mem hk) _ (List.mem_map_of_mem hc)
  unfold TableMeta.dropColumnAt at hcall
  split at hcall
  · cases hcall
  case isFalse hlt =>
    obtain ⟨t₁, hunique, hcall⟩ := Exec.of_bind hcall
    obtain ⟨t₂, hprimary, hcall⟩ := Exec.of_bind hcall
    cases hcall
    have hp : p < t.columnsCount := Nat.not_le.mp hlt
    obtain ⟨a, rfl, huniqueKeys⟩ := dropFromUniqueKeys_spec (uniqueSafe_of_safe h hs hsafe)
      (h.keys .UNIQUE_KEY) hunique
    obtain ⟨pk, rfl, hprimaryKey⟩ := dropFromPrimaryKey_spec (t := { t with m_uniqueKeys := a })
      (fun k hk => hs.nonempty hk) (h.keys .PRIMARY_KEY) hprimary
    refine ⟨hp, TableMeta.Has.buildColumnOffsetList ⟨?_, ?_, ?_⟩⟩
    · rw [Schema.edit, ← h.types]
      exact types_withoutColumn t.m_columns type
    · intro i d hd
      exact places_withoutColumn hp hcount h.places hd
    · intro kind
      cases kind with
      | PRIMARY_KEY => exact hprimaryKey
      | UNIQUE_KEY => exact huniqueKeys
      | INDEX =>
        show Written t.m_indexs.keys (editKeys _ _ _)
        rw [editKeys_of_same hindex fun k hk => hs.nonempty hk]
        exact h.keys .INDEX

theorem dropColumn_spec (h : t.Has s) (hs : s.Sound) {column : String}
    (hsafe : Safe t (.dropColumn column)) (hcall : t.dropColumn column = .ok (0, t')) :
    (t.editOf (.dropColumn column)).Fits s.types.length ∧
      t'.Has (s.edit (t.editOf (.dropColumn column)) type) := by
  unfold TableMeta.dropColumn at hcall
  split at hcall
  · cases hcall
  case h_2 d hd =>
    have hplace : t.placeOf column = some d.m_columnIndex := by
      rw [← getColumn_place h.places, hd]
      rfl
    have hedit : t.editOf (.dropColumn column) = .erase d.m_columnIndex := by
      simp only [TableMeta.editOf, hplace]
    rw [Safe, hedit] at hsafe
    rw [hedit]
    exact dropColumnAt_spec h hs hsafe hcall

/-! ## Calls -/

theorem call_spec (h : t.Has s) (hs : s.Sound) {c : ColumnCall} (hsafe : Safe t c)
    (hcall : t.call c = .ok (0, t')) :
    (t.editOf c).Fits s.types.length ∧ t'.Has (s.edit (t.editOf c) c.newType) := by
  cases c with
  | addColumn column addAfter first => exact addColumn_spec h hs hsafe hcall
  | dropColumn column => exact dropColumn_spec h hs hsafe hcall
  | dropColumnAt columnIndex => exact dropColumnAt_spec h hs hsafe hcall
  | modifyColumn column first addAfter => exact modifyColumn_spec h hs hcall
  | changeColumn newColumn columnName first addAfter => exact changeColumn_spec h hs hcall
  | renameColumn oldName newName => exact ⟨trivial, renameColumn_spec h hs hcall⟩

theorem Schema.Sound.edit (hs : s.Sound) (hfits : e.Fits s.types.length)
    (hcount : (e.apply type s.types).length < 2 ^ 16) : (s.edit e type).Sound where
  count := hcount
  nonempty := by
    intro kind k hk
    obtain ⟨-, hne⟩ := List.mem_filter.mp hk
    simpa using hne
  typed := by
    intro kind k hk c' hc'
    obtain ⟨hmem, -⟩ := List.mem_filter.mp hk
    obtain ⟨k₀, hk₀, rfl⟩ := List.mem_map.mp hmem
    obtain ⟨c, hc, hedit⟩ := List.mem_filterMap.mp hc'
    obtain ⟨q, hplace, rfl⟩ := Option.map_eq_some_iff.mp hedit
    show ((e.apply type s.types)[q]?).map ColumnType.code = _
    rw [ListEdit.getElem?_apply hfits hplace]
    cases e.replaces c.columnId with
    | true => rfl
    | false => exact hs.typed hk₀ c hc

theorem length_safe (h : t.Has s) (hs : s.Sound) (hsafe : SafeEdit t e) (hfits : e.Fits s.types.length) :
    (e.apply type s.types).length < 2 ^ 16 := by
  have hcount := hs.count
  cases e with
  | keep => exact hcount
  | insert place =>
    have hlt : t.columnsCount < 65535 := hsafe.1
    rw [columnsCount_eq h] at hlt
    rw [ListEdit.apply, List.length_insertIdx]
    split <;> omega
  | erase place => exact Nat.lt_of_le_of_lt (List.length_eraseIdx_le _ _) hcount
  | move start dest =>
    have herase := List.length_eraseIdx_of_lt hfits.1
    rw [ListEdit.apply, List.length_insertIdx]
    split <;> omega

end DBStream.Native.Meta
