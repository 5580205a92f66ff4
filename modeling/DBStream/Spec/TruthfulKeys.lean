import DBStream.Spec.ColumnPlacement
import DBStream.Spec.TableCreationCorrect
import DBStream.Spec.TableSummaries

/-!
# Names and flags

A table is `Truthful` when its columns have different names, its unique keys and indexes have different
names, and the flags of a column say to which kinds of keys it belongs.  `Keeps` is the condition on a
call under which the table stays so, and `truthful_of_run` is about any run of such calls.

What `Keeps` leaves out makes the names or the flags wrong.  `getIndex` and `getUniqueKey` do not see the
first key of a kind, so `addIndex` takes its name again; a unique key marks its columns as columns of an
index; `dropIndex` of the only unique key clears the flag of the indexes.
-/

namespace DBStream.Native.Meta

/-- A column belongs to a key of a kind. -/
def TableMeta.InKey (t : TableMeta) (kind : KeyType) (i : Nat) : Prop := ∃ k ∈ t.keyColumns kind, i ∈ k.1

/-- What `nameCompare` compares of the names of the columns. -/
def TableMeta.columnNames (t : TableMeta) : List String :=
  t.m_columns.map fun c => nameKey t.caseSensitive c.m_columnName

/-- What `nameCompare` compares of the names of keys. -/
def namesOf (caseSensitive : Bool) (ks : List (List Nat × String)) : List String :=
  ks.map fun k => nameKey caseSensitive k.2

/-- What `nameCompare` compares of the names of the indexes and the unique keys. -/
def TableMeta.keyNames (t : TableMeta) : List String :=
  namesOf t.caseSensitive (t.keyColumns .INDEX ++ t.keyColumns .UNIQUE_KEY)

/-- The flag of each column says whether the column belongs to a key of a kind. -/
def Flagged (t : TableMeta) (kind : KeyType) : Prop :=
  ∀ i c, t.m_columns[i]? = some c → (kind.flag c = true ↔ t.InKey kind i)

/-- Names are distinct, and flags are right. -/
structure Truthful (t : TableMeta) : Prop where
  described : Described t
  columnNames : t.columnNames.Nodup
  keyNames : t.keyNames.Nodup
  flags : ∀ kind, Flagged t kind

/-- A call on columns or keys that keeps names distinct and flags right. -/
def Keeps (t : TableMeta) : TableCall → Prop
  | .column (.addColumn column addAfter first) =>
    Safe t (.addColumn column addAfter first) ∧ ∀ kind, KeyType.flag kind column = false
  | .column c => Safe t c
  | .key (.addIndex indexName columns kind) =>
    -- the first key of a kind is a key too, and a unique key does not make an index
    nameKey t.caseSensitive (newName t.caseSensitive t.keyColumns ⟨indexName, columns⟩) ∉ t.keyNames ∧
      (kind = .UNIQUE_KEY → ∀ ids ∈ t.columnIds columns, ∀ i ∈ ids, t.InKey .INDEX i)
  | .key (.renameIndex oldName newName) =>
    nameEq t.caseSensitive oldName newName = false →
      ∀ key : UnionKeyMeta, t.getKey t.m_indexs oldName = some (some key) →
        nameKey t.caseSensitive newName ∉
          namesOf t.caseSensitive ((t.keyColumns .INDEX).eraseIdx key.keyId ++ t.keyColumns .UNIQUE_KEY)
  | .key (.dropIndex indexName) =>
    DropsLast t (.dropIndex indexName) ∧
      ((∃ idx, t.dropped (.dropIndex indexName) = some (.UNIQUE_KEY, idx)) →
        (t.keys .UNIQUE_KEY).length ≠ 1)
  | .key c => DropsLast t c

variable {t t' t₀ : TableMeta} {kind : KeyType} {e : ListEdit} {c : ColumnMeta} {p q : Nat}

/-! ## Columns -/

/-- What a call on columns does to the names and the flags of the columns. -/
structure ColumnStep (t t' : TableMeta) (e : ListEdit) : Prop where
  caseSensitive : t'.caseSensitive = t.caseSensitive
  names : t.columnNames.Nodup → t'.columnNames.Nodup
  flags : ∀ kind, ∃ b, t'.m_columns.map (KeyType.flag kind) = e.apply b (t.m_columns.map (KeyType.flag kind)) ∧
    (∀ q, e = .insert q → b = false) ∧
    ∀ s d, e = .move s d → (t.m_columns[s]?).map (KeyType.flag kind) = some b

theorem flag_unnumbered (kind : KeyType) (c : ColumnMeta) : kind.flag (unnumbered c) = kind.flag c := by
  cases kind <;> rfl

theorem map_eq_of_unnumbered {α : Type} {columns columns' : List ColumnMeta}
    (h : columns'.map unnumbered = columns.map unnumbered) {field : ColumnMeta → α}
    (hfield : ∀ c, field (unnumbered c) = field c) : columns'.map field = columns.map field := by
  have hmap (l : List ColumnMeta) : l.map field = (l.map unnumbered).map field := by
    rw [List.map_map]
    exact List.map_congr_left fun c _ => (hfield c).symm
  rw [hmap, h, ← hmap]

theorem columnNames_of_edit (hcase : t'.caseSensitive = t.caseSensitive)
    (hcolumns : t'.m_columns.map unnumbered = (e.apply c t.m_columns).map unnumbered) :
    t'.columnNames = (e.apply c t.m_columns).map fun c => nameKey t.caseSensitive c.m_columnName := by
  rw [TableMeta.columnNames, hcase]
  exact map_eq_of_unnumbered hcolumns fun _ => rfl

theorem flags_of_edit (hcolumns : t'.m_columns.map unnumbered = (e.apply c t.m_columns).map unnumbered)
    (kind : KeyType) : t'.m_columns.map (KeyType.flag kind) =
      e.apply (kind.flag c) (t.m_columns.map (KeyType.flag kind)) := by
  rw [map_eq_of_unnumbered hcolumns (flag_unnumbered kind), ListEdit.map_apply]

variable {name : String}

theorem nameKey_of_getColumn_none (h : t.getColumn name = none) :
    nameKey t.caseSensitive name ∉ t.columnNames := by
  intro hmem
  obtain ⟨d, hd, heq⟩ := List.mem_map.mp hmem
  have hnone := List.find?_eq_none.mp h d hd
  exact hnone (nameEq_iff.mpr heq)

theorem addColumn_step {column : ColumnMeta} {addAfter : Option String} {first : Bool}
    (h : Described t) (hsafe : Safe t (.addColumn column addAfter first))
    (hflags : ∀ kind, KeyType.flag kind column = false)
    (hcall : t.addColumn column addAfter first = .ok (0, t')) :
    ColumnStep t t' (t.editOf (.addColumn column addAfter first)) := by
  obtain ⟨hnew, hcase, place, c, hplace, hle, hc, hcolumns⟩ := addColumn_columns hcall
  have hedit : t.editOf (.addColumn column addAfter first) = .insert place := insertOf_eq h.has hplace
  rw [Safe, hedit] at hsafe
  rw [hedit]
  have hlen : (withColumn t.m_columns place c).length = t.columnsCount + 1 := by
    simp [withColumn, TableMeta.columnsCount]
    omega
  have hlt : t.columnsCount < 65535 := hsafe.1
  rw [Nat.mod_eq_of_lt (by omega), ← hlen, List.take_length] at hcolumns
  have hput : t'.m_columns.map unnumbered = (ListEdit.apply (.insert place) c t.m_columns).map unnumbered := by
    rw [hcolumns]
    exact unnumbered_withColumn hle c
  have hplain := withCharset_plain hc
  refine ⟨hcase, fun hnodup => ?_, fun kind =>
    ⟨_, flags_of_edit hput kind, fun _ _ => ?_, fun _ _ hmove => by cases hmove⟩⟩
  · have hname : c.m_columnName = column.m_columnName := by rw [withCharset_name hc]
    rw [columnNames_of_edit hcase hput]
    have hperm : (ListEdit.apply (.insert place) c t.m_columns).Perm (c :: t.m_columns) :=
      List.perm_insertIdx _ _ hle
    rw [(hperm.map _).nodup_iff, List.map_cons, List.nodup_cons, hname]
    exact ⟨nameKey_of_getColumn_none hnew, hnodup⟩
  · have hflag := hflags kind
    obtain ⟨-, hprimary, hunique, hindex⟩ := hplain
    cases kind with
    | PRIMARY_KEY => exact hprimary.trans hflag
    | UNIQUE_KEY => exact hunique.trans hflag
    | INDEX => exact hindex.trans hflag

theorem getColumn_getElem? (hplaces : ∀ i (c : ColumnMeta), t.m_columns[i]? = some c → c.m_columnIndex = i)
    (h : t.getColumn name = some c) : t.m_columns[c.m_columnIndex]? = some c := by
  obtain ⟨i, hi, rfl⟩ := List.getElem_of_mem (List.mem_of_find?_eq_some h)
  rw [hplaces i _ (List.getElem?_eq_getElem hi), List.getElem?_eq_getElem hi]

theorem nameKey_replaced {name newName : String} (hold : t.getColumn name = some c)
    (hname : nameEq t.caseSensitive name newName = true ∨ t.getColumn newName = none) :
    nameKey t.caseSensitive newName = nameKey t.caseSensitive c.m_columnName ∨
      nameKey t.caseSensitive newName ∉ t.columnNames := by
  refine hname.imp (fun hsame => ?_) nameKey_of_getColumn_none
  have hfound := List.find?_some (p := fun c : ColumnMeta => nameEq t.caseSensitive c.m_columnName name) hold
  exact (nameEq_iff.mp (nameEq_trans hfound hsame)).symm

theorem replaceColumn_step {old column : ColumnMeta} {first : Bool}
    {addAfter : Option String} (h : Described t) (hold : t.getColumn name = some old)
    (hname : nameEq t.caseSensitive name column.m_columnName = true ∨
      t.getColumn column.m_columnName = none)
    (hcall : t.replaceColumn old column first addAfter = .ok (0, t')) :
    ColumnStep t t' (t.moveOf name first addAfter) := by
  obtain ⟨hcase, dest, c, hmove, hstart, hdest, hc, hcolumns⟩ := replaceColumn_columns h.places hold hcall
  rw [hmove]
  have hput : t'.m_columns.map unnumbered =
      (ListEdit.apply (.move old.m_columnIndex dest) c t.m_columns).map unnumbered := by
    rw [hcolumns]
    exact unnumbered_moveColumn ..
  have hget : t.m_columns[old.m_columnIndex]? = some old := getColumn_getElem? h.places hold
  obtain ⟨-, hprimary, hunique, hindex⟩ := withCharset_plain hc
  refine ⟨hcase, fun hnodup => ?_, fun kind => ⟨_, flags_of_edit hput kind, nofun, fun s d hsame => ?_⟩⟩
  · have hname' : c.m_columnName = column.m_columnName := by rw [withCharset_name hc]
    rw [columnNames_of_edit hcase hput]
    have hlen : dest ≤ (t.m_columns.eraseIdx old.m_columnIndex).length := by
      rw [List.length_eraseIdx_of_lt hstart]
      unfold TableMeta.columnsCount at hdest
      omega
    have hperm : (ListEdit.apply (.move old.m_columnIndex dest) c t.m_columns).Perm
        (c :: t.m_columns.eraseIdx old.m_columnIndex) := List.perm_insertIdx _ _ hlen
    refine hnodup.map_replace hget hperm ?_
    rw [hname']
    exact nameKey_replaced hold hname
  · cases hsame
    rw [hget]
    cases kind with
    | PRIMARY_KEY => exact congrArg some hprimary.symm
    | UNIQUE_KEY => exact congrArg some hunique.symm
    | INDEX => exact congrArg some hindex.symm

theorem dropColumnAt_step (h : Described t) (hsafe : SafeEdit t (.erase p))
    (hcall : t.dropColumnAt p = .ok (0, t')) : ColumnStep t t' (.erase p) := by
  unfold TableMeta.dropColumnAt at hcall
  split at hcall
  · cases hcall
  · obtain ⟨t₁, hunique, hcall⟩ := Exec.of_bind hcall
    obtain ⟨t₂, hprimary, hcall⟩ := Exec.of_bind hcall
    cases hcall
    have huniqueSpec : ∃ a, t₁ = { t with m_uniqueKeys := a } ∧
        Written a.keys (editKeys (.erase p) .T_UNION _) :=
      dropFromUniqueKeys_spec (uniqueSafe_of_safe h.has h.sound hsafe) (h.has.keys .UNIQUE_KEY) hunique
    obtain ⟨a, rfl, -⟩ := huniqueSpec
    have hprimaryKeys : Written ({ t with m_uniqueKeys := a }.keys .PRIMARY_KEY) _ :=
      h.has.keys .PRIMARY_KEY
    have hprimarySpec : ∃ pk, t₂ = { t with m_uniqueKeys := a, m_primaryKey := pk } ∧
        Written (t₂.keys .PRIMARY_KEY) (editKeys (.erase p) .T_UNION _) :=
      dropFromPrimaryKey_spec (fun k hk => h.sound.nonempty hk) hprimaryKeys hprimary
    obtain ⟨pk, rfl, -⟩ := hprimarySpec
    have hfield {α : Type} {field : ColumnMeta → α} (hfield : ∀ c, field (unnumbered c) = field c) :
        (withoutColumn t.m_columns p).map field = (t.m_columns.map field).eraseIdx p := by
      have hsame : (withoutColumn t.m_columns p).map unnumbered = (t.m_columns.eraseIdx p).map unnumbered := by
        rw [List.eraseIdx_eq_take_drop_succ, withoutColumn, List.map_append, List.map_append, List.map_map]
        rfl
      rw [map_eq_of_unnumbered hsame hfield, List.eraseIdx_map]
    refine ⟨rfl, fun hnodup => ?_, fun kind =>
      ⟨false, hfield (flag_unnumbered kind), fun _ _ => rfl, fun _ _ hmove => by cases hmove⟩⟩
    show ((withoutColumn t.m_columns p).map _).Nodup
    rw [hfield fun _ => rfl]
    exact hnodup.eraseIdx p

variable {oldName newName : String}

theorem renameColumn_step (h : Described t)
    (hcall : t.renameColumn oldName newName = .ok (0, t')) : ColumnStep t t' .keep := by
  unfold TableMeta.renameColumn at hcall
  split at hcall
  · cases hcall
  case h_2 old hold =>
    split at hcall
    · cases hcall
    case isFalse hnew =>
      split at hcall
      · cases hcall
      · cases hcall
        have hget := getColumn_getElem? h.places hold
        obtain ⟨hlt, heq⟩ := List.getElem?_eq_some_iff.mp hget
        refine ⟨rfl, fun hnodup => ?_, fun kind => ⟨false, map_modify_of_same fun c => ?_, nofun, nofun⟩⟩
        · have hperm : (t.m_columns.modify old.m_columnIndex fun c => { c with m_columnName := newName }).Perm
              ({ old with m_columnName := newName } :: t.m_columns.eraseIdx old.m_columnIndex) := by
            rw [List.modify_eq_set_getElem?, hget]
            exact List.set_perm_cons_eraseIdx hlt _
          refine hnodup.map_replace hget hperm (nameKey_replaced hold ?_)
          by_cases hsame : nameEq t.caseSensitive oldName newName = true
          · exact .inl hsame
          · exact .inr (by simpa [hsame] using hnew)
        · cases kind <;> rfl

/-- What a column call that keeps the names does to columns, names and flags. -/
theorem column_step (h : Described t) {call : ColumnCall} (hkeeps : Keeps t (.column call))
    (hcall : t.call call = .ok (0, t')) : ColumnStep t t' (t.editOf call) := by
  cases call with
  | addColumn column addAfter first => exact addColumn_step h hkeeps.1 hkeeps.2 hcall
  | dropColumn column =>
    replace hcall : t.dropColumn column = .ok (0, t') := hcall
    unfold TableMeta.dropColumn at hcall
    split at hcall
    · cases hcall
    case h_2 d hd =>
      have hplace : t.placeOf column = some d.m_columnIndex := by
        rw [← getColumn_place h.places, hd]
        rfl
      have hedit : t.editOf (.dropColumn column) = .erase d.m_columnIndex := by
        simp only [TableMeta.editOf, hplace]
      replace hkeeps : SafeEdit t (t.editOf (.dropColumn column)) := hkeeps
      rw [hedit] at hkeeps ⊢
      exact dropColumnAt_step h hkeeps hcall
  | dropColumnAt columnIndex => exact dropColumnAt_step h hkeeps hcall
  | modifyColumn column first addAfter =>
    replace hcall : t.modifyColumn column first addAfter = .ok (0, t') := hcall
    unfold TableMeta.modifyColumn at hcall
    split at hcall
    · cases hcall
    case h_2 old hold => exact replaceColumn_step h hold (.inl (nameEq_self ..)) hcall
  | changeColumn newColumn columnName first addAfter =>
    replace hcall : t.changeColumn newColumn columnName first addAfter = .ok (0, t') := hcall
    unfold TableMeta.changeColumn at hcall
    split at hcall
    · cases hcall
    case h_2 old hold =>
      split at hcall
      · cases hcall
      case isFalse hnew =>
        refine replaceColumn_step h hold ?_ hcall
        by_cases hsame : nameEq t.caseSensitive columnName newColumn.m_columnName = true
        · exact .inl hsame
        · exact .inr (by simpa [hsame] using hnew)
  | renameColumn oldName newName => exact renameColumn_step h hcall

theorem inKey_edit {s : Schema} {type : ColumnType} (h : t.Has s) (h' : t'.Has (s.edit e type)) :
    t'.InKey kind q ↔ ∃ p, e.place p = some q ∧ t.InKey kind p := by
  have hin {t : TableMeta} {s : Schema} (h : t.Has s) {i : Nat} :
      t.InKey kind i ↔ ∃ k ∈ s.keys kind, ∃ c ∈ k.1, c.columnId = i := by
    rw [TableMeta.InKey, h.keyColumns]
    simp only [List.mem_map, exists_exists_and_eq_and]
  rw [hin h']
  constructor
  · rintro ⟨k, hk, c, hc, rfl⟩
    obtain ⟨hmem, -⟩ := List.mem_filter.mp hk
    obtain ⟨k₀, hk₀, rfl⟩ := List.mem_map.mp hmem
    obtain ⟨c₀, hc₀, hedit⟩ := List.mem_filterMap.mp hc
    obtain ⟨q, hplace, rfl⟩ := Option.map_eq_some_iff.mp hedit
    exact ⟨c₀.columnId, hplace, (hin h).mpr ⟨k₀, hk₀, c₀, hc₀, rfl⟩⟩
  · rintro ⟨p, hplace, hp⟩
    obtain ⟨k, hk, c, hc, rfl⟩ := (hin h).mp hp
    have hedit : ∃ c', editPair e type c = some c' ∧ c'.columnId = q := by
      rw [editPair, hplace]
      exact ⟨_, rfl, rfl⟩
    obtain ⟨c', hc', hq⟩ := hedit
    have hmem : c' ∈ editPairs e type k.1 := List.mem_filterMap.mpr ⟨c, hc, hc'⟩
    refine ⟨_, List.mem_filter.mpr ⟨List.mem_map_of_mem hk, ?_⟩, c', hmem, hq⟩
    have hne : editPairs e type k.1 ≠ [] := List.ne_nil_of_mem hmem
    simpa using hne

theorem keyNames_edit {s : Schema} {type : ColumnType} (h : t.Has s) (h' : t'.Has (s.edit e type))
    (hcase : t'.caseSensitive = t.caseSensitive) : t'.keyNames.Sublist t.keyNames := by
  have hkind (kind : KeyType) : ((t'.keyColumns kind).map Prod.snd).Sublist
      ((t.keyColumns kind).map Prod.snd) := by
    rw [h.keyColumns, h'.keyColumns, List.map_map, List.map_map]
    have hfilter := (List.filter_sublist (p := fun k : List UniqueKeyTypePair × String => !k.1.isEmpty)
      (l := (s.keys kind).map fun k => (editPairs e type k.1, k.2))).map Prod.snd
    rwa [List.map_map] at hfilter
  have hnames (t : TableMeta) : t.keyNames = ((t.keyColumns .INDEX).map Prod.snd ++
      (t.keyColumns .UNIQUE_KEY).map Prod.snd).map (nameKey t.caseSensitive) := by
    rw [TableMeta.keyNames, namesOf, ← List.map_append, List.map_map]
    rfl
  rw [hnames, hnames, hcase]
  exact ((hkind .INDEX).append (hkind .UNIQUE_KEY)).map _

theorem flag_at_place {flags flags' : List Bool} {b : Bool} (hflags : flags' = e.apply b flags)
    (hfits : e.Fits flags.length) (hmove : ∀ s d, e = .move s d → flags[s]? = some b)
    (hplace : e.place p = some q) : flags'[q]? = flags[p]? := by
  rw [hflags, ListEdit.getElem?_apply hfits hplace]
  split
  case isTrue hreplaces =>
    cases e with
    | move s d =>
      have hps : p = s := of_decide_eq_true hreplaces
      rw [hps]
      exact (hmove s d rfl).symm
    | keep => cases hreplaces
    | insert i => cases hreplaces
    | erase i => cases hreplaces
  case isFalse => rfl

theorem ColumnStep.flagged (hstep : ColumnStep t t' e) (hfits : e.Fits t.m_columns.length)
    (hkeys : ∀ q, t'.InKey kind q ↔ ∃ p, e.place p = some q ∧ t.InKey kind p) (h : Flagged t kind) :
    Flagged t' kind := by
  intro q c hc
  obtain ⟨b, hflags, hinsert, hmove⟩ := hstep.flags kind
  simp only [← List.getElem?_map] at hmove
  have hflag : (t'.m_columns.map (KeyType.flag kind))[q]? = some (kind.flag c) := by
    rw [List.getElem?_map, hc]
    rfl
  have hq := (List.getElem?_eq_some_iff.mp hflag).1
  rw [hflags] at hq
  rw [← List.length_map (f := KeyType.flag kind)] at hfits
  rw [hkeys]
  rcases ListEdit.exists_place hfits hq with ⟨p, hp, hplace⟩ | rfl
  · rw [List.length_map] at hp
    have hsame := (flag_at_place hflags hfits hmove hplace).symm.trans hflag
    rw [List.getElem?_map, List.getElem?_eq_getElem hp] at hsame
    rw [← Option.some.inj hsame, h p _ (List.getElem?_eq_getElem hp)]
    constructor
    · intro hin
      exact ⟨p, hplace, hin⟩
    · rintro ⟨p', hplace', hin⟩
      rwa [ListEdit.place_injective hplace hplace']
  · -- the new column has no flags, and is in no key
    have hself := List.getElem?_insertIdx_self (l := t.m_columns.map (KeyType.flag kind)) (i := q) (x := b)
    rw [if_pos (show q ≤ _ from hfits)] at hself
    rw [hflags] at hflag
    have hfalse : kind.flag c = false := (Option.some.inj (hflag.symm.trans hself)).trans (hinsert q rfl)
    rw [hfalse]
    refine iff_of_false Bool.false_ne_true ?_
    rintro ⟨p, hplace, -⟩
    simp only [ListEdit.place, Option.some.injEq] at hplace
    split at hplace <;> omega

theorem Truthful.column (h : Truthful t) {call : ColumnCall} (hkeeps : Keeps t (.column call))
    (hcall : t.call call = .ok (0, t')) : Truthful t' := by
  have hsafe : Safe t call := by
    cases call with
    | addColumn column addAfter first => exact hkeeps.1
    | dropColumn column => exact hkeeps
    | dropColumnAt columnIndex => exact hkeeps
    | modifyColumn column first addAfter => exact hkeeps
    | changeColumn newColumn columnName first addAfter => exact hkeeps
    | renameColumn oldName newName => exact hkeeps
  have hstep := column_step h.described hkeeps hcall
  obtain ⟨hfits, hhas⟩ := call_spec h.described.has h.described.sound hsafe hcall
  rw [← columnsCount_eq h.described.has] at hfits
  exact ⟨h.described.column hsafe hcall, hstep.names h.columnNames,
    (keyNames_edit h.described.has hhas hstep.caseSensitive).nodup h.keyNames,
    fun kind => hstep.flagged hfits (fun q => inKey_edit h.described.has hhas) (h.flags kind)⟩

/-! ## Loops that set flags -/

/-- The flags of the columns in `S` are `b` afterwards, and the others are as they were. -/
def SetsFlags (t t' : TableMeta) (S : KeyType → Nat → Prop) (b : Bool) : Prop :=
  ∀ i c', t'.m_columns[i]? = some c' → ∃ c, t.m_columns[i]? = some c ∧
    ∀ kind, (S kind i → kind.flag c' = b) ∧ (¬S kind i → kind.flag c' = kind.flag c)

variable {S S' : KeyType → Nat → Prop} {b : Bool} {mark : ColumnMeta → ColumnMeta} {t'' : TableMeta}
  {ids : List Nat}

/-- A change of a column that sets the flag of a kind. -/
def SetsFlag (kind : KeyType) (b : Bool) (mark : ColumnMeta → ColumnMeta) : Prop :=
  ∀ other c, KeyType.flag other (mark c) = if other = kind then b else KeyType.flag other c

theorem setsFlag_unflag (kind : KeyType) : SetsFlag kind false kind.unflag := by
  intro other c
  cases kind <;> cases other <;> rfl

theorem setsFlag_isPrimary : SetsFlag .PRIMARY_KEY true fun c => { c with m_isPrimary := true } := by
  intro other c
  cases other <;> rfl

private theorem setsFlag_isIndex : SetsFlag .INDEX true fun c => { c with m_isIndex := true } := by
  intro other c
  cases other <;> rfl

private theorem setsFlag_added (hkind : kind ≠ .PRIMARY_KEY) : SetsFlag kind true fun c =>
    if kind = .UNIQUE_KEY then { c with m_isUnique := true } else { c with m_isIndex := true } := by
  intro other c
  cases kind with
  | PRIMARY_KEY => exact absurd rfl hkind
  | UNIQUE_KEY => cases other <;> rfl
  | INDEX => cases other <;> rfl

theorem SetsFlags.refl (t : TableMeta) (b : Bool) : SetsFlags t t (fun _ _ => False) b :=
  fun _ c hc => ⟨c, hc, fun _ => ⟨False.elim, fun _ => rfl⟩⟩

theorem SetsFlags.trans (h : SetsFlags t t' S b) (h' : SetsFlags t' t'' S' b) :
    SetsFlags t t'' (fun kind i => S kind i ∨ S' kind i) b := by
  intro i c'' hc''
  obtain ⟨c', hc', hflags'⟩ := h' i c'' hc''
  obtain ⟨c, hc, hflags⟩ := h i c' hc'
  refine ⟨c, hc, fun kind => ⟨?_, fun hnot => ?_⟩⟩
  · intro hboth
    by_cases hlast : S' kind i
    · exact (hflags' kind).1 hlast
    · rw [(hflags' kind).2 hlast]
      exact (hflags kind).1 (hboth.resolve_right hlast)
  · rw [(hflags' kind).2 fun hlast => hnot (.inr hlast), (hflags kind).2 fun hfirst => hnot (.inl hfirst)]

theorem SetsFlags.congr (h : SetsFlags t t' S b) (hS : ∀ kind i, S kind i ↔ S' kind i) :
    SetsFlags t t' S' b := by
  intro i c' hc'
  obtain ⟨c, hc, hflags⟩ := h i c' hc'
  exact ⟨c, hc, fun kind => by rw [← hS]; exact hflags kind⟩

theorem setsFlags_modify (hmark : SetsFlag kind b mark) (t : TableMeta) (i : Nat) :
    SetsFlags t { t with m_columns := t.m_columns.modify i mark } (fun other j => other = kind ∧ j = i) b := by
  intro j c' hc'
  rw [List.getElem?_modify] at hc'
  obtain ⟨c, hc, rfl⟩ := Option.map_eq_some_iff.mp hc'
  refine ⟨c, hc, fun other => ?_⟩
  by_cases hij : i = j
  · subst hij
    simp only [if_true, hmark other c, and_true]
    constructor
    · intro heq
      rw [if_pos heq]
    · intro hne
      rw [if_neg hne]
  · rw [if_neg hij]
    exact ⟨fun hj => absurd hj.2.symm hij, fun _ => rfl⟩

theorem foldlM_setsFlags {α : Type} {turn : TableMeta → α → Exec TableMeta} (column : α → Nat)
    (sel : α → Prop) (hmark : SetsFlag kind b mark)
    (hturn : ∀ t x t', turn t x = .ok t' →
      sel x ∧ t.modifyAt (column x) mark = .ok t' ∨ ¬sel x ∧ t' = t)
    {l : List α} (h : l.foldlM turn t = .ok t') :
    SetsFlags t t' (fun other i => other = kind ∧ ∃ x ∈ l, sel x ∧ column x = i) b := by
  induction l generalizing t with
  | nil =>
    cases h
    exact (SetsFlags.refl _ b).congr fun other i => by simp
  | cons x l ih =>
    obtain ⟨t₁, hx, hrest⟩ := Exec.of_bind h
    have hrest := ih hrest
    rcases hturn t x t₁ hx with ⟨hsel, hmodify⟩ | ⟨hsel, rfl⟩
    · rw [modifyAt_eq hmodify] at hrest
      refine ((setsFlags_modify hmark t (column x)).trans hrest).congr fun other i => ?_
      simp only [List.exists_mem_cons_iff, hsel, true_and]
      rw [← and_or_left, eq_comm (a := i)]
    · refine hrest.congr fun other i => ?_
      simp only [List.exists_mem_cons_iff, hsel, false_and, false_or]

theorem foldlM_marks (hmark : SetsFlag kind b mark)
    (h : ids.foldlM (fun t id => t.modifyAt id mark) t = .ok t') :
    SetsFlags t t' (fun other i => other = kind ∧ i ∈ ids) b := by
  refine (foldlM_setsFlags id (fun _ => True) hmark
    (fun t x t' hturn => .inl ⟨trivial, hturn⟩) h).congr fun other i => ?_
  simp

theorem markColumns_setsFlags (hmark : SetsFlag kind b mark) (hmarks : Marks mark)
    (hnumbered : Numbered t.m_columns) {names : List String}
    (h : TableMeta.markColumns mark t names = .ok (some ids, t')) :
    SetsFlags t t' (fun other i => other = kind ∧ i ∈ ids) b := by
  induction names generalizing t ids with
  | nil =>
    cases h
    exact (SetsFlags.refl _ b).congr fun other i => by simp
  | cons name names ih =>
    rw [TableMeta.markColumns] at h
    split at h
    · cases h
    case h_2 i hi =>
      obtain ⟨c, hc, h⟩ := Exec.of_bind h
      obtain ⟨⟨rest, t₁⟩, hrest, hret⟩ := Exec.of_bind h
      obtain ⟨hids, rfl⟩ := Prod.mk.inj (Except.ok.inj hret)
      obtain ⟨ids, rfl, rfl⟩ := Option.map_eq_some_iff.mp hids
      have hindex : c.m_columnIndex = i := hnumbered i c (getElem?_of_tableAt hc)
      have hstep := remarked_modify t hmarks i
      refine ((setsFlags_modify hmark t i).trans
        (ih (numbered_of_unmarked hstep.columns hnumbered) hrest)).congr fun other j => ?_
      rw [List.mem_cons, hindex, ← and_or_left]

theorem SetsFlags.flagged_added (hset : SetsFlags t t' S true) (h : Flagged t kind)
    (hkeys : ∀ i, t'.InKey kind i ↔ t.InKey kind i ∨ S kind i) : Flagged t' kind := by
  intro i c' hc'
  obtain ⟨c, hc, hflags⟩ := hset i c' hc'
  rw [hkeys]
  by_cases hS : S kind i
  · rw [(hflags kind).1 hS]
    exact iff_of_true rfl (.inr hS)
  · rw [(hflags kind).2 hS, h i c hc]
    exact ⟨.inl, fun hin => hin.resolve_right hS⟩

theorem SetsFlags.flagged_dropped (hset : SetsFlags t t' S false) (h : Flagged t kind)
    (hkeys : ∀ i, t'.InKey kind i ↔ t.InKey kind i ∧ ¬S kind i) : Flagged t' kind := by
  intro i c' hc'
  obtain ⟨c, hc, hflags⟩ := hset i c' hc'
  rw [hkeys]
  by_cases hS : S kind i
  · rw [(hflags kind).1 hS]
    exact iff_of_false Bool.false_ne_true fun hin => hin.2 hS
  · rw [(hflags kind).2 hS, h i c hc]
    exact ⟨fun hin => ⟨hin, hS⟩, And.left⟩

/-! ## New keys -/

theorem inKey_added {keyKind : KeyType} {i : Nat}
    (hkeys : t'.keyColumns = added t.keyColumns keyKind (ids, name)) :
    t'.InKey kind i ↔ t.InKey kind i ∨ kind = keyKind ∧ i ∈ ids := by
  rw [TableMeta.InKey, hkeys, added]
  split
  case isTrue heq =>
    simp only [List.mem_append, List.mem_singleton, heq, true_and]
    constructor
    · rintro ⟨k, hk | rfl, hi⟩
      · exact .inl ⟨k, hk, hi⟩
      · exact .inr hi
    · rintro (⟨k, hk, hi⟩ | hi)
      · exact ⟨k, .inl hk, hi⟩
      · exact ⟨_, .inr rfl, hi⟩
  case isFalse hne =>
    exact ⟨.inl, fun hin => hin.resolve_right fun hboth => hne hboth.1⟩

theorem keyNames_added {keyKind : KeyType} (hcase : t'.caseSensitive = t.caseSensitive)
    (hkeys : t'.keyColumns = added t.keyColumns keyKind (ids, name)) (h : t.keyNames.Nodup)
    (hname : keyKind ≠ .PRIMARY_KEY → nameKey t.caseSensitive name ∉ t.keyNames) : t'.keyNames.Nodup := by
  have hnew : keyKind ≠ .PRIMARY_KEY → (nameKey t.caseSensitive name :: t.keyNames).Nodup :=
    fun hne => List.nodup_cons.mpr ⟨hname hne, h⟩
  rw [TableMeta.keyNames, namesOf, hkeys, hcase]
  cases keyKind with
  | PRIMARY_KEY => exact h
  | UNIQUE_KEY =>
    refine (List.Perm.nodup_iff ?_).mpr (hnew nofun)
    show (List.map _ (t.keyColumns .INDEX ++ (t.keyColumns .UNIQUE_KEY ++ [(ids, name)]))).Perm _
    rw [← List.append_assoc, List.map_append]
    exact List.perm_append_singleton ..
  | INDEX =>
    refine (List.Perm.nodup_iff ?_).mpr (hnew nofun)
    show (List.map _ (t.keyColumns .INDEX ++ [(ids, name)] ++ t.keyColumns .UNIQUE_KEY)).Perm _
    rw [List.append_assoc, List.singleton_append]
    exact List.perm_middle.map _

theorem columnNames_of_unmarked (hcase : t'.caseSensitive = t.caseSensitive)
    (hcolumns : t'.m_columns.map unmarked = t.m_columns.map unmarked) : t'.columnNames = t.columnNames := by
  rw [TableMeta.columnNames, hcase]
  exact map_eq_of_unmarked hcolumns fun _ => rfl

theorem Truthful.createPrimaryKey (h : Truthful t) {columns : List String}
    (hcall : t.createPrimaryKey columns = .ok (0, t')) : Truthful t' := by
  have hids : ∃ ids, t.columnIds columns = some ids := by
    cases hids : t.columnIds columns with
    | some ids => exact ⟨ids, rfl⟩
    | none =>
      unfold TableMeta.createPrimaryKey at hcall
      rw [TableMeta.columnIds] at hids
      rw [hids] at hcall
      split at hcall
      · cases hcall
      · split at hcall <;> cases hcall
  obtain ⟨ids, hids⟩ := hids
  obtain ⟨hsame, hkeys⟩ := createPrimaryKey_spec hids hcall
  obtain ⟨key, -, -, hloop⟩ := createPrimaryKey_marks hids hcall
  have hset := foldlM_marks setsFlag_isPrimary hloop
  replace hset : SetsFlags t t' (fun other i => other = .PRIMARY_KEY ∧ i ∈ ids) true := hset
  have hstep := createPrimaryKey_step hcall
  refine ⟨h.described.keyStep hstep, ?_, keyNames_added hsame.caseSensitive hkeys h.keyNames ?_,
    fun kind => hset.flagged_added (h.flags kind) fun i => inKey_added hkeys⟩
  · rw [columnNames_of_unmarked hsame.caseSensitive hstep.columns]
    exact h.columnNames
  · exact fun hne => absurd rfl hne

/-- A key with a new name keeps a table truthful. -/
theorem Truthful.addIndex (h : Truthful t) {indexName : String} {columns : List String}
    (hkeeps : Keeps t (.key (.addIndex indexName columns kind)))
    (hcall : t.addIndex indexName columns kind = .ok (0, t')) : Truthful t' := by
  obtain ⟨hname, hcovered⟩ := hkeeps
  have hstep := addIndex_step hcall
  have hkind : kind ≠ .PRIMARY_KEY := by
    rintro rfl
    unfold TableMeta.addIndex at hcall
    split at hcall
    · cases hcall
    · cases columns <;> cases hcall
  by_cases haddable : Addable t indexName columns
  swap
  · obtain ⟨t₁, hrefused, -⟩ := addIndex_refused kind haddable
    cases hrefused.symm.trans hcall
  obtain ⟨ids, -, hids, -⟩ := haddable.indexable
  obtain ⟨hsame, hkeys⟩ := addIndex_spec (k := ⟨indexName, columns⟩) hkind hids hcall
  obtain ⟨column, names, rfl⟩ := List.exists_cons_of_ne_nil haddable.nonempty
  obtain ⟨ids', key, name, t₁, t₂, hids', -, -, hmark, hloop, -, hadd⟩ := addIndex_marks hkind haddable
  cases hids'.symm.trans hids
  cases hadd.symm.trans hcall
  have hset₁ : SetsFlags t t₁ (fun other i => other = kind ∧ i ∈ ids) true :=
    markColumns_setsFlags (setsFlag_added hkind) (marks_added kind) h.described.places hmark
  have hset₂ : SetsFlags t₁ t₂ (fun other i => other = .INDEX ∧ i ∈ ids) true :=
    foldlM_marks setsFlag_isIndex hloop
  have hset : SetsFlags t (t₂.setKeyArray { keys := t.keys kind ++ [(some key, name)] } kind)
      (fun other i => other = kind ∧ i ∈ ids ∨ other = .INDEX ∧ i ∈ ids) true := by
    cases kind <;> exact hset₁.trans hset₂
  refine ⟨h.described.keyStep hstep, ?_, keyNames_added hsame.caseSensitive hkeys h.keyNames fun _ => hname,
    fun other => hset.flagged_added (h.flags other) fun i => ?_⟩
  · rw [columnNames_of_unmarked hsame.caseSensitive hstep.columns]
    exact h.columnNames
  · rw [inKey_added hkeys]
    constructor
    · exact Or.imp_right .inl
    · rintro (hin | hin | ⟨rfl, hi⟩)
      · exact .inl hin
      · exact .inr hin
      · -- the columns of a unique key belong to indexes, and those of an index to the new one
        cases kind with
        | PRIMARY_KEY => exact absurd rfl hkind
        | UNIQUE_KEY => exact .inl (hcovered rfl ids hids i hi)
        | INDEX => exact .inr ⟨rfl, hi⟩

/-! ## Dropped keys -/

def UnionKeyMeta.columnIds (key : UnionKeyMeta) : List Nat := key.columnInfo.map UniqueKeyTypePair.columnId

/-- A column belongs to one of some keys. -/
def InKeys (keys : List (Option UnionKeyMeta × String)) (i : Nat) : Prop :=
  ∃ k ∈ keys, ∃ key ∈ k.1, i ∈ UnionKeyMeta.columnIds key

theorem inKey_iff {i : Nat} : t.InKey kind i ↔ InKeys (t.keys kind) i := by
  rw [TableMeta.InKey, TableMeta.keyColumns, InKeys]
  simp only [List.mem_map, exists_exists_and_eq_and, List.mem_flatMap, Option.mem_toList, UnionKeyMeta.columnIds,
    Option.mem_def]

variable {keys : List (Option UnionKeyMeta × String)}

theorem stillKey_iff {columnId : Nat}
    (h : TableMeta.stillKey columnId keys = .ok b) : b = true ↔ InKeys keys columnId := by
  induction keys with
  | nil =>
    cases h
    refine iff_of_false Bool.false_ne_true ?_
    rintro ⟨k, hk, -⟩
    cases hk
  | cons k keys ih =>
    obtain ⟨key, name⟩ := k
    cases key with
    | none => cases h
    | some key =>
      rw [TableMeta.stillKey] at h
      rw [InKeys, List.exists_mem_cons_iff]
      split at h
      case isTrue hany =>
        cases h
        obtain ⟨c, hc, heq⟩ := List.any_eq_true.mp hany
        refine iff_of_true rfl (.inl ⟨key, rfl, ?_⟩)
        exact List.mem_map.mpr ⟨c, hc, of_decide_eq_true heq⟩
      case isFalse hany =>
        rw [ih h]
        refine ⟨.inr, fun hboth => hboth.resolve_left ?_⟩
        rintro ⟨key', hkey', hin⟩
        cases hkey'
        obtain ⟨c, hc, heq⟩ := List.mem_map.mp hin
        exact hany (List.any_eq_true.mpr ⟨c, hc, decide_eq_true heq⟩)

theorem dropKeyAt_setsFlags {a a' : KeyArray} {idx : Nat} {key : UnionKeyMeta}
    {last : KeyType} (hget : a.keys[idx]? = some (some key, name))
    (hlast : a.keys.length = 1 → last = kind)
    (h : t.dropKeyAt a idx last.unflag kind.unflag = .ok (a', t')) :
    SetsFlags t t' (fun other i => other = kind ∧ i ∈ key.columnIds ∧ ¬InKeys a'.keys i) false := by
  unfold TableMeta.dropKeyAt at h
  rw [tableAt_of_getElem? hget, Exec.ok_bind] at h
  dsimp only at h
  split at h
  case isTrue hone =>
    obtain ⟨t₁, hloop, hret⟩ := Exec.of_bind h
    cases hret
    rw [hlast hone] at hloop
    refine (foldlM_setsFlags UniqueKeyTypePair.columnId (fun _ => True)
      (setsFlag_unflag kind) (fun t c t' hturn => .inl ⟨trivial, hturn⟩) hloop).congr fun other i => ?_
    simp [UnionKeyMeta.columnIds, InKeys]
  case isFalse hmore =>
    obtain ⟨keys, hkeys, h⟩ := Exec.of_bind h
    obtain ⟨t₁, hloop, hret⟩ := Exec.of_bind h
    cases hret
    refine (foldlM_setsFlags UniqueKeyTypePair.columnId
      (fun c => ¬InKeys keys c.columnId) (setsFlag_unflag kind) (fun t c t' hturn => ?_)
      hloop).congr fun other i => ?_
    · obtain ⟨still, hstill, hturn⟩ := Exec.of_bind hturn
      rw [← stillKey_iff hstill]
      cases still with
      | true =>
        cases hturn
        exact .inr ⟨fun hnot => hnot rfl, rfl⟩
      | false => exact .inl ⟨Bool.false_ne_true, hturn⟩
    · simp only [UnionKeyMeta.columnIds, List.mem_map]
      constructor
      · rintro ⟨rfl, c, hc, hnot, rfl⟩
        exact ⟨rfl, ⟨c, hc, rfl⟩, hnot⟩
      · rintro ⟨rfl, ⟨c, hc, rfl⟩, hnot⟩
        exact ⟨rfl, c, hc, hnot, rfl⟩

private theorem inKeys_dropLast {idx : Nat} {key : UnionKeyMeta}
    (hget : keys[idx]? = some (some key, name)) (hidx : idx + 1 = keys.length) {i : Nat} :
    InKeys keys.dropLast i ↔ InKeys keys i ∧ ¬(i ∈ key.columnIds ∧ ¬InKeys keys.dropLast i) := by
  obtain ⟨hlt, heq⟩ := List.getElem?_eq_some_iff.mp hget
  have hne : keys ≠ [] := List.ne_nil_of_length_pos (by omega)
  have hgetLast : keys.getLast hne = (some key, name) := by
    rw [List.getLast_eq_getElem, ← heq]
    congr 1
    omega
  have hall : InKeys keys i ↔ InKeys keys.dropLast i ∨ i ∈ key.columnIds := by
    conv_lhs => rw [← List.dropLast_concat_getLast hne, hgetLast]
    simp [InKeys, or_and_right, exists_or]
  tauto

/-- So does the drop of the last key of a kind whose flag follows. -/
theorem Truthful.drop (h : Truthful t) {call : KeyCall} {idx : Nat}
    (hdropped : t.dropped call = some (kind, idx)) (hlast : DropsLast t call)
    (hflag : (t.keys kind).length = 1 → call.lastFlag kind = kind)
    (hcall : t.keyCall call = .ok (0, t')) : Truthful t' := by
  have hstep := keyCall_step hlast hcall
  obtain ⟨hkind, hlt, heq⟩ := keyCall_dropped hdropped
  have hidx : idx + 1 = (t.keys kind).length := hlast _ hdropped
  obtain ⟨key, hkey, -⟩ := h.described.keys kind _ (List.getElem_mem hlt)
  have hget : (t.keys kind)[idx]? = some (some key, (t.keys kind)[idx].2) := by
    rw [← hkey]
    exact List.getElem?_eq_getElem hlt
  generalize (t.keys kind)[idx].2 = name at hget
  rw [heq] at hcall
  obtain ⟨⟨a, t₁⟩, hdrop, hret⟩ := Exec.of_bind hcall
  cases hret
  rw [keys_eq_keyArray] at hget hidx hflag
  obtain ⟨hmarked, hkeys⟩ := dropKeyAt_last (marks_unflag _) (marks_unflag kind) hidx hdrop
  have hset := dropKeyAt_setsFlags hget hflag hdrop
  replace hset : SetsFlags t (t₁.setKeyArray a kind)
      (fun other i => other = kind ∧ i ∈ key.columnIds ∧ ¬InKeys a.keys i) false := by
    cases kind <;> exact hset
  have hcase : (t₁.setKeyArray a kind).caseSensitive = t.caseSensitive := by
    obtain ⟨columns, rfl, -⟩ := hmarked
    cases kind <;> rfl
  have hothers {other : KeyType} (hne : other ≠ kind) :
      (t₁.setKeyArray a kind).keys other = t.keys other := by
    rw [keys_setKeyArray_of_ne t₁ a hne, hmarked.keys]
  have hthis : (t₁.setKeyArray a kind).keys kind = (t.keys kind).dropLast := by
    rw [keys_setKeyArray t₁ a hkind, hkeys, keys_eq_keyArray]
  refine ⟨h.described.keyStep hstep, ?_, ?_, fun other => hset.flagged_dropped (h.flags other) fun i => ?_⟩
  · rw [columnNames_of_unmarked hcase hstep.columns]
    exact h.columnNames
  · have hsub (other : KeyType) : ((t₁.setKeyArray a kind).keyColumns other).Sublist (t.keyColumns other) := by
      refine List.Sublist.map _ ?_
      by_cases hne : other = kind
      · rw [hne, hthis]
        exact List.dropLast_sublist _
      · rw [hothers hne]
    rw [TableMeta.keyNames, hcase]
    exact (((hsub .INDEX).append (hsub .UNIQUE_KEY)).map _).nodup h.keyNames
  · rw [inKey_iff, inKey_iff]
    by_cases hne : other = kind
    · subst hne
      rw [hthis, hkeys, ← keys_eq_keyArray]
      rw [← keys_eq_keyArray] at hget hidx
      simp only [true_and]
      exact inKeys_dropLast hget hidx
    · rw [hothers hne]
      simp [hne]

theorem Truthful.dropPrimaryKey (h : Truthful t) (hcall : t.dropPrimaryKey = .ok t') : Truthful t' := by
  have hstep := dropPrimaryKey_step hcall
  unfold TableMeta.dropPrimaryKey at hcall
  split at hcall
  · cases hcall
    exact h
  case h_2 key hkey =>
    obtain ⟨t₁, hloop, hret⟩ := Exec.of_bind hcall
    cases hret
    have hset := foldlM_setsFlags UniqueKeyTypePair.columnId (fun _ => True)
      (setsFlag_unflag .PRIMARY_KEY) (fun t c t' hturn => .inl ⟨trivial, hturn⟩) hloop
    replace hset : SetsFlags t { t₁ with m_primaryKey := none } _ false := hset
    obtain ⟨columns, rfl, hcolumns⟩ :=
      foldlM_remarked (fun t c t' => modifyAt_remarked (marks_isPrimary false)) hloop
    refine ⟨h.described.keyStep hstep, ?_, h.keyNames,
      fun other => hset.flagged_dropped (h.flags other) fun i => ?_⟩
    · have hnames := columnNames_of_unmarked ?_ hstep.columns
      · rw [hnames]
        exact h.columnNames
      · rfl
    · rw [inKey_iff, inKey_iff]
      cases other with
      | PRIMARY_KEY =>
        rw [TableMeta.keys, TableMeta.keys, hkey]
        simp [InKeys, UnionKeyMeta.columnIds]
      | UNIQUE_KEY => simp [TableMeta.keys]
      | INDEX => simp [TableMeta.keys]

/-! ## Renamed keys -/

theorem renameIndex_cases (h : t.renameIndex oldName newName = .ok (0, t')) :
    t' = t ∨ nameEq t.caseSensitive oldName newName = false ∧ ∃ key : UnionKeyMeta,
      t.getKey t.m_indexs oldName = some (some key) ∧ ∃ k, t.m_indexs.keys[key.keyId]? = some k ∧
        t' = { t with m_indexs := { t.m_indexs with keys := t.m_indexs.keys.set key.keyId (k.1, newName) } } := by
  unfold TableMeta.renameIndex at h
  split at h
  · cases h
  case h_2 k hk =>
    split at h
    · cases h
      exact .inl rfl
    case isFalse hne =>
      split at h
      · cases h
      · split at h
        · cases h
        case h_2 key =>
          obtain ⟨⟨key', name⟩, hget, hret⟩ := Exec.of_bind h
          cases hret
          exact .inr ⟨Bool.eq_false_iff.mpr hne, key, hk, _, getElem?_of_tableAt hget, rfl⟩

theorem inKeys_set {place : Nat}
    {k : Option UnionKeyMeta × String} (hget : keys[place]? = some k) (name : String) {i : Nat} :
    InKeys (keys.set place (k.1, name)) i ↔ InKeys keys i := by
  have hfst (keys : List (Option UnionKeyMeta × String)) : InKeys keys i ↔
      ∃ k ∈ keys.map Prod.fst, ∃ key ∈ k, i ∈ UnionKeyMeta.columnIds key := by
    simp only [InKeys, List.mem_map, exists_exists_and_eq_and]
  obtain ⟨hlt, rfl⟩ := List.getElem?_eq_some_iff.mp hget
  have hsame : (keys.set place (keys[place].1, name)).map Prod.fst = keys.map Prod.fst := by
    rw [List.map_set, ← List.getElem_map Prod.fst (h := by rwa [List.length_map]), List.set_getElem_self]
  rw [hfst, hsame, ← hfst]

theorem Truthful.renameIndex (h : Truthful t)
    (hkeeps : Keeps t (.key (.renameIndex oldName newName)))
    (hcall : t.renameIndex oldName newName = .ok (0, t')) : Truthful t' := by
  have hstep := renameIndex_step hcall
  rcases renameIndex_cases hcall with rfl | ⟨hne, key, hkey, k, hget, rfl⟩
  · exact h
  have hlt := (List.getElem?_eq_some_iff.mp hget).1
  refine ⟨h.described.keyStep hstep, h.columnNames, ?_, fun kind i c hc => ?_⟩
  · -- the new name stands in the place of the old one
    have hname := hkeeps hne key hkey
    have hlt' : key.keyId < (t.keyColumns .INDEX).length := by
      rwa [TableMeta.keyColumns, List.length_map]
    have hset : ∃ ids, TableMeta.keyColumns { t with m_indexs := { t.m_indexs with
        keys := t.m_indexs.keys.set key.keyId (k.1, newName) } } .INDEX =
          (t.keyColumns .INDEX).set key.keyId (ids, newName) := ⟨_, List.map_set⟩
    obtain ⟨ids, hset⟩ := hset
    have hperm : ((t.keyColumns .INDEX).set key.keyId (ids, newName) ++ t.keyColumns .UNIQUE_KEY).Perm
        ((ids, newName) :: ((t.keyColumns .INDEX).eraseIdx key.keyId ++ t.keyColumns .UNIQUE_KEY)) :=
      (List.set_perm_cons_eraseIdx hlt' _).append_right _
    rw [TableMeta.keyNames, namesOf, hset]
    refine ((hperm.map _).nodup_iff).mpr (List.nodup_cons.mpr ⟨hname, ?_⟩)
    exact (((List.eraseIdx_sublist _ _).append_right _).map _).nodup h.keyNames
  · rw [h.flags kind i c hc, inKey_iff, inKey_iff]
    cases kind with
    | PRIMARY_KEY => exact Iff.rfl
    | UNIQUE_KEY => exact Iff.rfl
    | INDEX => exact (inKeys_set hget newName).symm

/-! ## Runs -/

theorem Truthful.step (h : Truthful t) {call : TableCall} (hkeeps : Keeps t call)
    (hcall : t.tableCall call = .ok (0, t')) : Truthful t' := by
  cases call with
  | column call => exact h.column hkeeps hcall
  | key call =>
    cases call with
    | createPrimaryKey columns => exact h.createPrimaryKey hcall
    | dropPrimaryKey =>
      obtain ⟨t₁, hdrop, hret⟩ := Exec.of_bind hcall
      cases hret
      exact h.dropPrimaryKey hdrop
    | addIndex indexName columns kind => exact h.addIndex hkeeps hcall
    | dropUniqueKey ukName =>
      obtain ⟨⟨kind, idx⟩, hdropped⟩ := dropped_of_ok ⟨ukName, .inl rfl⟩ hcall
      exact h.drop hdropped hkeeps (fun _ => rfl) hcall
    | dropIndex indexName =>
      obtain ⟨⟨kind, idx⟩, hdropped⟩ := dropped_of_ok ⟨indexName, .inr rfl⟩ hcall
      refine h.drop hdropped hkeeps.1 (fun hone => ?_) hcall
      -- the only unique key would leave its flag
      cases kind with
      | PRIMARY_KEY => exact absurd rfl (keyCall_dropped hdropped).1
      | UNIQUE_KEY => exact absurd hone (hkeeps.2 ⟨idx, hdropped⟩)
      | INDEX => rfl
    | renameIndex oldName newName => exact h.renameIndex hkeeps hcall

/-- In a run of such calls names stay distinct, and the flags of the columns say to which kinds of keys
    they belong. -/
theorem truthful_of_run (h₀ : Truthful t₀) (hrun : TableRun Keeps t₀ t) : Truthful t := by
  induction hrun with
  | start => exact h₀
  | call _ hkeeps hcall ih => exact ih.step hkeeps hcall

def pairTable : TableMeta :=
  { m_columns := [{ m_columnType := .T_UINT32, m_columnName := "a", m_columnIndex := 0 },
      { m_columnType := .T_UINT32, m_columnName := "b", m_columnIndex := 1 }] }

theorem truthful_pairTable : Truthful pairTable := by
  refine ⟨⟨by decide, ?_, ?_⟩, by decide, by decide, fun kind i c hc => ?_⟩
  · intro i c hc
    match i with
    | 0 | 1 =>
      cases hc
      rfl
    | n + 2 => cases hc
  · intro kind k hk
    cases kind <;> cases hk
  · have hflag : kind.flag c = false := by
      match i with
      | 0 | 1 =>
        cases hc
        cases kind <;> rfl
      | n + 2 => cases hc
    rw [hflag]
    refine iff_of_false Bool.false_ne_true ?_
    rintro ⟨k, hk, -⟩
    cases kind <;> cases hk

/-- An index and a unique key on its column. -/
theorem truthful_of_run_two : ∃ t, TableRun Keeps pairTable t ∧ t.keyNames = ["i", "u"] ∧ Truthful t := by
  let c : TableCall := .key (.addIndex "u" ["a"] .UNIQUE_KEY)
  have hcalls : ∃ t₁, pairTable.tableCall (.key (.addIndex "i" ["a"] .INDEX)) = .ok (0, t₁) ∧
      Keeps t₁ c ∧ ∃ t₂, t₁.tableCall c = .ok (0, t₂) ∧ t₂.keyNames = ["i", "u"] := by
    refine ⟨_, rfl, ⟨by decide, fun _ ids hids i hi => ?_⟩, _, rfl, by decide⟩
    cases hids
    cases List.mem_singleton.mp hi
    exact ⟨_, List.mem_singleton_self _, List.mem_singleton_self _⟩
  obtain ⟨t₁, hcall₁, hkeeps, t₂, hcall₂, hnames⟩ := hcalls
  have hfirst : Keeps pairTable (.key (.addIndex "i" ["a"] .INDEX)) := ⟨by decide, nofun⟩
  have hrun := TableRun.call (TableRun.call .start hfirst hcall₁) hkeeps hcall₂
  exact ⟨t₂, hrun, hnames, truthful_of_run truthful_pairTable hrun⟩

/-- A name is given twice, a unique key makes a column one of an index, and the drop of the only unique
    key leaves its flag. -/
theorem names_and_flags_lost : Truthful pairTable ∧
    (∃ t, TableRun (fun _ _ => True) pairTable t ∧ ¬t.keyNames.Nodup) ∧
    (∃ t, TableRun (fun _ _ => True) pairTable t ∧ ¬Flagged t .INDEX) ∧
    ∃ t, TableRun (fun _ _ => True) pairTable t ∧ ¬Flagged t .UNIQUE_KEY := by
  have hindex := TableRun.call (P := fun _ _ => True) .start trivial
    (rfl : pairTable.tableCall (.key (.addIndex "k" ["a"] .INDEX)) = .ok (0, _))
  have htwice := TableRun.call hindex trivial
    (rfl : TableMeta.tableCall _ (.key (.addIndex "k" ["b"] .INDEX)) = .ok (0, _))
  have hunique := TableRun.call (P := fun _ _ => True) .start trivial
    (rfl : pairTable.tableCall (.key (.addIndex "u" ["a"] .UNIQUE_KEY)) = .ok (0, _))
  have hdropped := TableRun.call hunique trivial
    (rfl : TableMeta.tableCall _ (.key (.dropIndex "u")) = .ok (0, _))
  refine ⟨truthful_pairTable, ⟨_, htwice, by decide⟩, ⟨_, hunique, fun hflagged => ?_⟩,
    ⟨_, hdropped, fun hflagged => ?_⟩⟩
  · obtain ⟨k, hk, -⟩ := (hflagged 0 _ rfl).mp rfl
    cases hk
  · obtain ⟨k, hk, -⟩ := (hflagged 0 _ rfl).mp rfl
    cases hk

end DBStream.Native.Meta
