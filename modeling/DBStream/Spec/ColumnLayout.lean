import DBStream.Spec.KeysFollow

/-!
# The layout of the columns

A call that adds, drops or replaces a column numbers the columns by their places and ends with
`buildColumnOffsetList`.  `ColumnLayout` is what the three arrays should hold, and
`columnLayout_of_run` carries it through any run of calls, whatever becomes of the keys.
-/

namespace DBStream.Native.Meta

/-! ## Layouts -/

/-- `m_columnIndex` of each column is its place. -/
def Numbered (columns : List ColumnMeta) : Prop :=
  ∀ i (c : ColumnMeta), columns[i]? = some c → c.m_columnIndex = i

/-- The columns are numbered by their places, the fixed ones and the other ones each in their order,
    and the offsets are the sums of the sizes of the fixed columns in front. -/
structure ColumnLayout (t : TableMeta) : Prop where
  index : Numbered t.m_columns
  fixedColumnCount : t.m_fixedColumnCount = fixedCount t.types
  varColumnCount : t.m_varColumnCount = varCount t.types
  length_realIndex : t.m_realIndexInRowFormat.length = t.columnsCount
  length_offsets : t.m_fixedColumnOffsetsInRecord.length = fixedCount t.types + 1
  realIndex : ∀ {i type}, t.types[i]? = some type → t.m_realIndexInRowFormat[i]? =
    some (if type.info.fixed then fixedCount (t.types.take i) else varCount (t.types.take i))
  offset : ∀ {i type}, t.types[i]? = some type → type.info.fixed = true →
    t.m_fixedColumnOffsetsInRecord[fixedCount (t.types.take i)]? = some (fixedSize (t.types.take i))
  total : t.m_fixedColumnOffsetsInRecord[fixedCount t.types]? = some (fixedSize t.types)

/-- The bytes of a fixed column in a row: the first one, and the one behind the last. -/
def TableMeta.slot (t : TableMeta) (i : Nat) : Option (Nat × Nat) := do
  let type ← t.types[i]?
  let real ← t.m_realIndexInRowFormat[i]?
  let offset ← t.m_fixedColumnOffsetsInRecord[real]?
  return (offset, offset + type.info.columnTypeSize)

/-- Each fixed column has a slot, and no two slots have a byte in common. -/
structure SlotsApart (t : TableMeta) : Prop where
  slot : ∀ {i type}, t.types[i]? = some type → type.info.fixed = true → ∃ a, t.slot i = some a
  apart : ∀ {i j type type' a b}, i < j → t.types[i]? = some type → t.types[j]? = some type' →
    type.info.fixed = true → type'.info.fixed = true → t.slot i = some a → t.slot j = some b →
      a.2 ≤ b.1

variable {t t' t₀ : TableMeta} {l : Lineage}

theorem ColumnLayout.slot_eq (h : ColumnLayout t) {i : Nat} {type : ColumnType}
    (hi : t.types[i]? = some type) (hfixed : type.info.fixed = true) :
    t.slot i = some (fixedSize (t.types.take i), fixedSize (t.types.take i) + type.info.columnTypeSize) := by
  have hreal := h.realIndex hi
  rw [if_pos hfixed] at hreal
  simp only [TableMeta.slot, hi, hreal, h.offset hi hfixed, Option.bind_eq_bind, Option.bind_some]
  rfl

theorem take_append_getElem? {α : Type} {l : List α} {i : Nat} {a : α} (h : l[i]? = some a) :
    l = l.take i ++ a :: l.drop (i + 1) := by
  obtain ⟨hlt, rfl⟩ := List.getElem?_eq_some_iff.mp h
  rw [← List.drop_eq_getElem_cons hlt, List.take_append_drop]

private theorem fixedSize_take {ts : List ColumnType} {i j : Nat} {type : ColumnType} (hij : i < j)
    (hi : ts[i]? = some type) (hfixed : type.info.fixed = true) :
    fixedSize (ts.take i) + type.info.columnTypeSize ≤ fixedSize (ts.take j) := by
  have hget : (ts.take j)[i]? = some type := by rwa [List.getElem?_take_of_lt hij]
  have hsplit := take_append_getElem? hget
  rw [List.take_take, Nat.min_eq_left (Nat.le_of_lt hij)] at hsplit
  rw [hsplit, fixedSize_append, fixedSize_cons hfixed]
  omega

theorem ColumnLayout.slotsApart (h : ColumnLayout t) : SlotsApart t where
  slot := fun hi hfixed => ⟨_, h.slot_eq hi hfixed⟩
  apart := by
    intro i j type type' a b hij hi hj hfixed hfixed' ha hb
    rw [h.slot_eq hi hfixed] at ha
    rw [h.slot_eq hj hfixed'] at hb
    cases ha
    cases hb
    exact fixedSize_take hij hi hfixed

/-! ## `buildColumnOffsetList` -/

theorem columnLayout_buildColumnOffsetList (hnumbered : Numbered t.m_columns)
    (hsize : fixedSize t.types < 2 ^ 16) : ColumnLayout t.buildColumnOffsetList := by
  have h : OffsetListFor t.types (t.types.foldl OffsetList.add {}) := offsetListFor_foldl t.types
  have hlen : (t.types.foldl OffsetList.add {}).m_fixedColumnOffsetsInRecord.length =
      fixedCount t.types := h.length_offsets.trans h.fixedCount
  refine ⟨hnumbered, h.fixedCount, h.varCount, ?_, ?_, ?_, ?_, ?_⟩
  · show (t.types.foldl OffsetList.add {}).m_realIndexInRowFormat.length = t.m_columns.length
    rw [h.length_real]
    exact List.length_map _
  · show ((t.types.foldl OffsetList.add {}).m_fixedColumnOffsetsInRecord ++ [_]).length =
      fixedCount t.types + 1
    rw [List.length_append, hlen]
    rfl
  · intro i type hi
    replace hi : t.types[i]? = some type := hi
    have hlt := (List.getElem?_eq_some_iff.mp hi).1
    have htake : (t.types.take i).length = i := List.length_take_of_le (Nat.le_of_lt hlt)
    have hsplit := take_append_getElem? hi
    cases hfixed : type.info.fixed with
    | true =>
      have hreal := (h.fixed hsplit hfixed).1
      rw [htake] at hreal
      exact hreal
    | false =>
      have hreal := h.var hsplit hfixed
      rw [htake] at hreal
      exact hreal
  · intro i type hi hfixed
    have hle := fixedSize_append (t.types.take i) (t.types.drop i)
    rw [List.take_append_drop] at hle
    have hoffset := (h.fixed (take_append_getElem? hi) hfixed).2
    rw [Nat.mod_eq_of_lt (by omega)] at hoffset
    exact getElem?_concat hoffset
  · show ((t.types.foldl OffsetList.add {}).m_fixedColumnOffsetsInRecord ++
      [(t.types.foldl OffsetList.add {}).fixedOffset % 2 ^ 16])[fixedCount t.types]? =
        some (fixedSize t.types)
    rw [h.fixedOffset, ← hlen, List.getElem?_concat_length, Nat.mod_eq_of_lt hsize]

/-! ## Calls -/

/-- The columns are numbered and the layout is built of them. -/
def Relaid (t' : TableMeta) : Prop :=
  ∃ t : TableMeta, t' = t.buildColumnOffsetList ∧ Numbered t.m_columns ∧ t.columnsCount < 2 ^ 16

theorem updateKeysWhenColumnUpdate_same {start dest : Nat} {newType : ColumnType}
    (h : t.updateKeysWhenColumnUpdate start dest newType = .ok t') :
    t'.m_columns = t.m_columns ∧ t'.caseSensitive = t.caseSensitive := by
  obtain ⟨pk, -, h⟩ := Exec.of_bind h
  obtain ⟨uniqueKeys, -, h⟩ := Exec.of_bind h
  obtain ⟨indexs, -, h⟩ := Exec.of_bind h
  cases h
  exact ⟨rfl, rfl⟩

theorem updateKeysWhenColumnUpdate_columns {start dest : Nat} {newType : ColumnType}
    (h : t.updateKeysWhenColumnUpdate start dest newType = .ok t') : t'.m_columns = t.m_columns :=
  (updateKeysWhenColumnUpdate_same h).1

private theorem numbered_take_withColumn {columns : List ColumnMeta} {place : Nat} {c : ColumnMeta}
    (hnumbered : Numbered columns) (hcount : columns.length < 2 ^ 16) (hplace : place ≤ columns.length)
    (hc : c.m_columnIndex = place) :
    Numbered ((withColumn columns place c).take ((columns.length + 1) % 2 ^ 16)) := by
  intro i d hd
  obtain hlt | hge := Nat.lt_or_ge columns.length 65535
  · rw [List.getElem?_take] at hd
    split at hd
    · exact places_withColumn hplace hc hlt hnumbered hd
    · cases hd
  · have hzero : (columns.length + 1) % 2 ^ 16 = 0 := by omega
    rw [hzero, List.take_zero] at hd
    cases hd

theorem addColumn_relaid (hnumbered : Numbered t.m_columns) (hcount : t.columnsCount < 2 ^ 16)
    {column : ColumnMeta} {addAfter : Option String} {first : Bool}
    (h : t.addColumn column addAfter first = .ok (0, t')) : Relaid t' := by
  unfold TableMeta.addColumn at h
  split at h
  · cases h
  · split at h
    · cases h
    case h_2 place hplace =>
      split at h
      · cases h
      case isFalse hle =>
        obtain ⟨c, hc, h⟩ := Exec.of_bind h
        have hnumbered' := numbered_take_withColumn hnumbered hcount (Nat.not_lt.mp hle)
          (withCharset_spec hc).1
        have hcount' : ((withColumn t.m_columns place c).take
            ((t.m_columns.length + 1) % 2 ^ 16)).length < 2 ^ 16 := by
          refine Nat.lt_of_le_of_lt (List.length_take_le _ _) ?_
          omega
        dsimp only at h
        split at h
        · cases h
          exact ⟨_, rfl, hnumbered', hcount'⟩
        · obtain ⟨t₁, hupdate, h⟩ := Exec.of_bind h
          cases h
          have hcolumns := updateKeysWhenColumnUpdate_columns hupdate
          refine ⟨t₁, rfl, ?_, ?_⟩
          · rw [hcolumns]
            exact hnumbered'
          · rw [TableMeta.columnsCount, hcolumns]
            exact hcount'

theorem dropColumnAt_relaid (hnumbered : Numbered t.m_columns) (hcount : t.columnsCount < 2 ^ 16)
    {columnIndex : Nat} (h : t.dropColumnAt columnIndex = .ok (0, t')) : Relaid t' := by
  unfold TableMeta.dropColumnAt at h
  split at h
  · cases h
  case isFalse hlt =>
    obtain ⟨t₁, -, h⟩ := Exec.of_bind h
    obtain ⟨t₂, -, h⟩ := Exec.of_bind h
    cases h
    refine ⟨_, rfl, ?_, ?_⟩
    · intro i d hd
      exact places_withoutColumn (Nat.not_le.mp hlt) hcount hnumbered hd
    · have hlen : (t.m_columns.take columnIndex ++ (t.m_columns.drop (columnIndex + 1)).map fun c =>
          ({ c with m_columnIndex := sub16 c.m_columnIndex 1 } : ColumnMeta)).length ≤
            t.m_columns.length := by
        simp only [List.length_append, List.length_map, List.length_drop, List.length_take]
        unfold TableMeta.columnsCount at hlt
        omega
      exact Nat.lt_of_le_of_lt hlen hcount

theorem replaceColumn_relaid (hnumbered : Numbered t.m_columns) (hcount : t.columnsCount < 2 ^ 16)
    {old column : ColumnMeta} {first : Bool} {addAfter : Option String}
    (h : t.replaceColumn old column first addAfter = .ok (0, t')) : Relaid t' := by
  unfold TableMeta.replaceColumn at h
  split at h
  · cases h
  · dsimp only at h
    split at h
    · cases h
    case h_2 dest htarget =>
      split at h
      · cases h
      case isFalse hfits =>
        obtain ⟨hstart, hdest⟩ := not_or.mp hfits
        obtain ⟨c, hc, h⟩ := Exec.of_bind h
        obtain ⟨t₁, hupdate, h⟩ := Exec.of_bind h
        cases h
        have hcolumns := updateKeysWhenColumnUpdate_columns hupdate
        refine ⟨t₁, rfl, ?_, ?_⟩
        · rw [hcolumns]
          intro i d hd
          exact places_moveColumn (Nat.not_le.mp hstart) (Nat.not_le.mp hdest) hnumbered hd
        · have hlen : (TableMeta.moveColumn t.m_columns old.m_columnIndex dest c).length =
              t.m_columns.length := by
            unfold TableMeta.columnsCount at hstart hdest
            rw [TableMeta.moveColumn, List.length_mapIdx, List.length_insertIdx,
              List.length_eraseIdx_of_lt (by omega), if_pos (by omega)]
            omega
          rw [TableMeta.columnsCount, hcolumns]
          exact hlen ▸ hcount

/-- The table with another name of the column at a place. -/
def TableMeta.named (t : TableMeta) (i : Nat) (newName : String) : TableMeta :=
  { t with m_columns := t.m_columns.modify i fun c => { c with m_columnName := newName } }

theorem renameColumn_named {oldName newName : String}
    (h : t.renameColumn oldName newName = .ok (0, t')) : ∃ i, t' = t.named i newName := by
  unfold TableMeta.renameColumn at h
  split at h
  · cases h
  · split at h
    · cases h
    · split at h
      · cases h
      · cases h
        exact ⟨_, rfl⟩

theorem types_named (t : TableMeta) (i : Nat) (newName : String) : (t.named i newName).types = t.types := by
  refine Eq.trans (map_modify_of_same ?_) rfl
  intro c
  rfl

theorem columnsCount_named (t : TableMeta) (i : Nat) (newName : String) :
    (t.named i newName).columnsCount = t.columnsCount := List.length_modify ..

theorem numbered_named (hnumbered : Numbered t.m_columns) (i : Nat) (newName : String) :
    Numbered (t.named i newName).m_columns := by
  intro j d hd
  obtain ⟨d₀, hd₀, hindex⟩ := getElem?_modify_of_same (g := ColumnMeta.m_columnIndex)
    (f := fun c => { c with m_columnName := newName }) (fun _ => rfl) hd
  exact hindex.trans (hnumbered j d₀ hd₀)

theorem ColumnLayout.named (h : ColumnLayout t) (i : Nat) (newName : String) :
    ColumnLayout (t.named i newName) := by
  have htypes := types_named t i newName
  refine ⟨numbered_named h.index i newName, ?_, ?_, ?_, ?_, ?_, ?_, ?_⟩
  · rw [htypes]
    exact h.fixedColumnCount
  · rw [htypes]
    exact h.varColumnCount
  · rw [columnsCount_named]
    exact h.length_realIndex
  · rw [htypes]
    exact h.length_offsets
  · rw [htypes]
    exact h.realIndex
  · rw [htypes]
    exact h.offset
  · rw [htypes]
    exact h.total

theorem call_relaid (hnumbered : Numbered t.m_columns) (hcount : t.columnsCount < 2 ^ 16)
    {c : ColumnCall} (h : t.call c = .ok (0, t')) :
    Relaid t' ∨ ∃ i newName, t' = t.named i newName := by
  cases c with
  | addColumn column addAfter first => exact .inl (addColumn_relaid hnumbered hcount h)
  | dropColumn column =>
    replace h : t.dropColumn column = .ok (0, t') := h
    unfold TableMeta.dropColumn at h
    split at h
    · cases h
    · exact .inl (dropColumnAt_relaid hnumbered hcount h)
  | dropColumnAt columnIndex => exact .inl (dropColumnAt_relaid hnumbered hcount h)
  | modifyColumn column first addAfter =>
    replace h : t.modifyColumn column first addAfter = .ok (0, t') := h
    unfold TableMeta.modifyColumn at h
    split at h
    · cases h
    · exact .inl (replaceColumn_relaid hnumbered hcount h)
  | changeColumn newColumn columnName first addAfter =>
    replace h : t.changeColumn newColumn columnName first addAfter = .ok (0, t') := h
    unfold TableMeta.changeColumn at h
    split at h
    · cases h
    · split at h
      · cases h
      · exact .inl (replaceColumn_relaid hnumbered hcount h)
  | renameColumn oldName newName =>
    obtain ⟨i, ht'⟩ := renameColumn_named h
    exact .inr ⟨i, newName, ht'⟩

/-! ## Runs -/

/-- What a run keeps: in between the fixed columns may take more than 64 KiB. -/
structure LaidOut (t : TableMeta) : Prop where
  numbered : Numbered t.m_columns
  count : t.columnsCount < 2 ^ 16
  layout : fixedSize t.types < 2 ^ 16 → ColumnLayout t

theorem LaidOut.call (h : LaidOut t) {c : ColumnCall} (hcall : t.call c = .ok (0, t')) : LaidOut t' := by
  rcases call_relaid h.numbered h.count hcall with ⟨t₁, rfl, hnumbered, hcount⟩ | ⟨i, newName, rfl⟩
  · exact ⟨hnumbered, hcount, fun hsize => columnLayout_buildColumnOffsetList hnumbered hsize⟩
  · refine ⟨numbered_named h.numbered i newName, ?_, fun hsize => ?_⟩
    · rw [columnsCount_named]
      exact h.count
    · rw [types_named] at hsize
      exact (h.layout hsize).named i newName

theorem ColumnRun.laidOut {P : TableMeta → ColumnCall → Prop} (h₀ : LaidOut t₀)
    (hrun : ColumnRun P t₀ t l) : LaidOut t := by
  induction hrun with
  | start => exact h₀
  | call _ _ hcall ih => exact ih.call hcall

/-- The layout of a table stays right in any run of successful calls, and the slots of its fixed
    columns stay apart. -/
theorem columnLayout_of_run {P : TableMeta → ColumnCall → Prop} (h₀ : ColumnLayout t₀)
    (hcount : t₀.columnsCount < 2 ^ 16) (hrun : ColumnRun P t₀ t l)
    (hsize : fixedSize t.types < 2 ^ 16) : ColumnLayout t ∧ SlotsApart t := by
  have hlaid := hrun.laidOut ⟨h₀.index, hcount, fun _ => h₀⟩
  exact ⟨hlaid.layout hsize, (hlaid.layout hsize).slotsApart⟩

private theorem columnLayout_empty : ColumnLayout {} := by
  refine ⟨?_, rfl, rfl, rfl, rfl, ?_, ?_, rfl⟩
  · intro i c hc
    cases hc
  · intro i type hi
    cases hi
  · intro i type hi
    cases hi

def columnOf (name : String) (type : ColumnType) : ColumnMeta :=
  { m_columnType := type, m_columnName := name }

/-- A number and a text are added, a number in front of them, and the first one gets larger and moves
    to the front. -/
theorem columnLayout_of_run_three : ∃ t l, ColumnRun (fun _ _ => True) {} t l ∧
    t.m_fixedColumnOffsetsInRecord = [0, 8, 10] ∧ t.m_realIndexInRowFormat = [0, 1, 0] ∧
      ColumnLayout t ∧ SlotsApart t := by
  have hrun₁ := ColumnRun.call (P := fun _ _ => True) .start trivial
    (rfl : TableMeta.call {} (.addColumn (columnOf "a" .T_UINT32) none false) = .ok (0, _))
  have hrun₂ := ColumnRun.call hrun₁ trivial
    (rfl : TableMeta.call _ (.addColumn (columnOf "b" .T_STRING) none false) = .ok (0, _))
  have hrun₃ := ColumnRun.call hrun₂ trivial
    (rfl : TableMeta.call _ (.addColumn (columnOf "c" .T_UINT16) none true) = .ok (0, _))
  have hrun₄ := ColumnRun.call hrun₃ trivial
    (rfl : TableMeta.call _ (.modifyColumn (columnOf "a" .T_UINT64) true none) = .ok (0, _))
  exact ⟨_, _, hrun₄, rfl, rfl, columnLayout_of_run columnLayout_empty (by decide) hrun₄ (by decide)⟩

end DBStream.Native.Meta
