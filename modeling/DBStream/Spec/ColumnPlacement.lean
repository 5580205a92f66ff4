import DBStream.Spec.ColumnLayout

/-!
# Where a statement puts a column

`ADD`, `MODIFY` and `CHANGE` of a column, each with `FIRST`, with `AFTER` another column, or with
neither.  `wantedPlace` counts the other columns that a statement puts in front of the column.  The
code puts a column that comes after another one at the place of that one (`codePlace`), which is behind
it only if the column was in front of it: `follows_iff`.
-/

namespace DBStream.Native.Meta

/-- The end of a statement. -/
inductive Placement where
  | unplaced
  | first
  | after (name : String)

/-- A statement that has a placement. -/
inductive ColumnStatement where
  | add (column : ColumnMeta)
  | modify (column : ColumnMeta)
  | change (newColumn : ColumnMeta) (columnName : String)

def Placement.addAfter : Placement → Option String
  | .after name => some name
  | _ => none

def Placement.isFirst : Placement → Bool
  | .first => true
  | _ => false

namespace ColumnStatement

def call (st : ColumnStatement) (pl : Placement) : ColumnCall :=
  match st with
  | add column => .addColumn column pl.addAfter pl.isFirst
  | modify column => .modifyColumn column pl.isFirst pl.addAfter
  | change newColumn columnName => .changeColumn newColumn columnName pl.isFirst pl.addAfter

def column : ColumnStatement → ColumnMeta
  | add column | modify column | change column _ => column

/-- The place of the column that is replaced. -/
def oldPlace (st : ColumnStatement) (t : TableMeta) : Option Nat :=
  match st with
  | add _ => none
  | modify column => t.placeOf column.m_columnName
  | change _ columnName => t.placeOf columnName

/-- The columns that a statement does not name. -/
def others (st : ColumnStatement) (t : TableMeta) : List ColumnMeta :=
  match st.oldPlace t with
  | none => t.m_columns
  | some start => t.m_columns.eraseIdx start

/-- The place that a column has without a placement: its old one, or the end. -/
def ownPlace (st : ColumnStatement) (t : TableMeta) : Nat := (st.oldPlace t).getD t.columnsCount

/-- The number of other columns that a statement puts in front of its column. -/
def wantedPlace (st : ColumnStatement) (t : TableMeta) : Placement → Option Nat
  | .unplaced => some (st.ownPlace t)
  | .first => some 0
  | .after name => (t.placeOf name).map fun p =>
    match st.oldPlace t with
    | none => p + 1
    | some start => if start ≤ p then p else p + 1

/-- The number of other columns that the code puts in front of it. -/
def codePlace (st : ColumnStatement) (t : TableMeta) : Placement → Option Nat
  | .unplaced => some (st.ownPlace t)
  | .first => some 0
  | .after name => t.placeOf name

end ColumnStatement

def unnumbered (c : ColumnMeta) : ColumnMeta := { c with m_columnIndex := 0 }

/-- The columns are those of `columns`, in their order, with a new one at `place` that has the name and
    the type of `column`. -/
def PlacedAt (t : TableMeta) (columns : List ColumnMeta) (column : ColumnMeta) (place : Nat) : Prop :=
  place ≤ columns.length ∧ ∃ c : ColumnMeta, c.m_columnName = column.m_columnName ∧
    c.m_columnType = column.m_columnType ∧
      t.m_columns.map unnumbered = (columns.insertIdx place c).map unnumbered

/-- The column is where the statement wants it, and the others are as they were. -/
def Follows (t t' : TableMeta) (st : ColumnStatement) (pl : Placement) : Prop :=
  ∃ place ∈ st.wantedPlace t pl, PlacedAt t' (st.others t) st.column place

/-- A column is added behind less than 65535 others, and one that comes after another column was not
    behind it. -/
def Honoured (t : TableMeta) (st : ColumnStatement) (pl : Placement) : Prop :=
  (st.oldPlace t = none → t.columnsCount < 65535) ∧
    ∀ name, pl = .after name → ∃ start ∈ st.oldPlace t, ∃ p ∈ t.placeOf name, start ≤ p

variable {t t' : TableMeta} {st : ColumnStatement} {pl : Placement} {column : ColumnMeta}

/-! ## Names -/

theorem nameEq_symm {caseSensitive : Bool} {a b : String} (h : nameEq caseSensitive a b = true) :
    nameEq caseSensitive b a = true := by
  unfold nameEq at h ⊢
  split at h <;> simp_all

theorem nameEq_trans {caseSensitive : Bool} {a b c : String} (h : nameEq caseSensitive a b = true)
    (h' : nameEq caseSensitive b c = true) : nameEq caseSensitive a c = true := by
  unfold nameEq at h h' ⊢
  split at h <;> simp_all

theorem not_nameEq_of_lt {name : String} {p i : Nat} {c : ColumnMeta} (h : t.placeOf name = some p)
    (hi : i < p) (hc : t.m_columns[i]? = some c) : nameEq t.caseSensitive c.m_columnName name = false := by
  obtain ⟨_, -, hfirst⟩ := List.findIdx?_eq_some_iff_getElem.mp h
  obtain ⟨_, rfl⟩ := List.getElem?_eq_some_iff.mp hc
  simpa using hfirst i hi

theorem not_nameEq_of_none {name : String} {i : Nat} {c : ColumnMeta} (h : t.getColumn name = none)
    (hc : t.m_columns[i]? = some c) : nameEq t.caseSensitive c.m_columnName name = false := by
  have hnone := List.find?_eq_none.mp h c (List.mem_of_getElem? hc)
  simpa using hnone

theorem withCharset_name {c c' : ColumnMeta} (h : t.withCharset c = .ok c') :
    c'.m_columnName = c.m_columnName := by
  unfold TableMeta.withCharset at h
  split at h
  · split at h
    · obtain ⟨charset, -, h⟩ := Exec.of_bind h
      cases h
      rfl
    · cases h
      rfl
  · cases h
    rfl

/-! ## Places -/

theorem unnumbered_withColumn {columns : List ColumnMeta} {place : Nat} (hplace : place ≤ columns.length)
    (c : ColumnMeta) : (withColumn columns place c).map unnumbered =
      (columns.insertIdx place c).map unnumbered := by
  induction columns generalizing place with
  | nil =>
    cases Nat.le_zero.mp hplace
    rfl
  | cons d columns ih =>
    cases place with
    | zero => simp [withColumn, unnumbered]
    | succ place => exact congrArg (unnumbered d :: ·) (ih (Nat.le_of_succ_le_succ hplace))

theorem unnumbered_moveColumn (columns : List ColumnMeta) (start dest : Nat) (c : ColumnMeta) :
    (TableMeta.moveColumn columns start dest c).map unnumbered =
      ((columns.eraseIdx start).insertIdx dest c).map unnumbered := by
  apply List.ext_getElem?
  intro i
  rw [TableMeta.moveColumn, List.getElem?_map, List.getElem?_mapIdx, List.getElem?_map, Option.map_map]
  split <;> rfl

theorem addColumn_columns {addAfter : Option String} {first : Bool}
    (h : t.addColumn column addAfter first = .ok (0, t')) :
    t.getColumn column.m_columnName = none ∧ t'.caseSensitive = t.caseSensitive ∧
      ∃ place c, t.addPlace addAfter first = some place ∧ place ≤ t.m_columns.length ∧
        t.withCharset { column with m_columnIndex := place } = .ok c ∧
        t'.m_columns = (withColumn t.m_columns place c).take ((t.columnsCount + 1) % 2 ^ 16) := by
  unfold TableMeta.addColumn at h
  split at h
  · cases h
  case isFalse hnew =>
    split at h
    · cases h
    case h_2 place hplace =>
      split at h
      · cases h
      case isFalse hle =>
        obtain ⟨c, hc, h⟩ := Exec.of_bind h
        refine ⟨by simpa using hnew, ?_⟩
        dsimp only at h
        split at h
        · cases h
          exact ⟨rfl, place, c, hplace, Nat.not_lt.mp hle, hc, rfl⟩
        · obtain ⟨t₁, hupdate, h⟩ := Exec.of_bind h
          cases h
          obtain ⟨hcolumns, hcase⟩ := updateKeysWhenColumnUpdate_same hupdate
          exact ⟨hcase, place, c, hplace, Nat.not_lt.mp hle, hc, hcolumns⟩

theorem replaceColumn_columns (hnumbered : Numbered t.m_columns) {old : ColumnMeta} {name : String}
    {first : Bool} {addAfter : Option String} (hold : t.getColumn name = some old)
    (h : t.replaceColumn old column first addAfter = .ok (0, t')) :
    t'.caseSensitive = t.caseSensitive ∧ ∃ dest c,
      t.moveOf name first addAfter = .move old.m_columnIndex dest ∧
      old.m_columnIndex < t.columnsCount ∧ dest < t.columnsCount ∧
      t.withCharset { column with
        m_columnIndex := dest
        m_isPrimary := old.m_isPrimary
        m_isUnique := old.m_isUnique
        m_isIndex := old.m_isIndex } = .ok c ∧
      t'.m_columns = TableMeta.moveColumn t.m_columns old.m_columnIndex dest c := by
  unfold TableMeta.replaceColumn at h
  split at h
  · cases h
  · dsimp only at h
    split at h
    · cases h
    case h_2 dest htarget =>
      split at h
      · cases h
      case isFalse hfits =>
        obtain ⟨hstart, hdest⟩ := not_or.mp hfits
        obtain ⟨c, hc, h⟩ := Exec.of_bind h
        obtain ⟨t₁, hupdate, h⟩ := Exec.of_bind h
        cases h
        obtain ⟨hcolumns, hcase⟩ := updateKeysWhenColumnUpdate_same hupdate
        exact ⟨hcase, dest, c, moveOf_eq hnumbered hold htarget, Nat.not_le.mp hstart,
          Nat.not_le.mp hdest, hc, hcolumns⟩

theorem addColumn_placed (hnumbered : Numbered t.m_columns) (hcount : t.columnsCount < 2 ^ 16)
    (h : t.addColumn column pl.addAfter pl.isFirst = .ok (0, t')) :
    t.getColumn column.m_columnName = none ∧ (65535 ≤ t.columnsCount → t'.m_columns = []) ∧
      (t.columnsCount < 65535 → ∃ place ∈ ColumnStatement.codePlace (.add column) t pl,
        PlacedAt t' t.m_columns column place) := by
  obtain ⟨hnew, -, place, c, hplace, hle, hc, hcolumns⟩ := addColumn_columns h
  have hname : c.m_columnName = column.m_columnName := by rw [withCharset_name hc]
  have hcode : ColumnStatement.codePlace (.add column) t pl = some place := by
    rw [← hplace]
    cases pl with
    | unplaced => rfl
    | first => rfl
    | after name => exact (getColumn_place hnumbered name).symm
  refine ⟨hnew, fun hfull => ?_, fun hlt => ⟨place, hcode, hle, c, ?_⟩⟩
  · rw [hcolumns, show (t.columnsCount + 1) % 2 ^ 16 = 0 by omega, List.take_zero]
  · have hlen : (withColumn t.m_columns place c).length = t.columnsCount + 1 := by
      simp [withColumn, TableMeta.columnsCount]
      omega
    rw [hcolumns, Nat.mod_eq_of_lt (by omega), ← hlen, List.take_length]
    exact ⟨hname, (withCharset_spec hc).2, unnumbered_withColumn hle c⟩

/-- A column that is replaced stands where the code puts it. -/
theorem replaceColumn_placed (st : ColumnStatement) (hnumbered : Numbered t.m_columns)
    {old : ColumnMeta} {name : String} (hold : t.getColumn name = some old)
    (hst : st.oldPlace t = t.placeOf name)
    (h : t.replaceColumn old column pl.isFirst pl.addAfter = .ok (0, t')) :
    ∃ start ∈ st.oldPlace t, ∃ place ∈ st.codePlace t pl,
      PlacedAt t' (t.m_columns.eraseIdx start) column place := by
  have hplace : t.placeOf name = some old.m_columnIndex := by
    rw [← getColumn_place hnumbered, hold]
    rfl
  obtain ⟨-, dest, c, hmove, hstart, hdest, hc, hcolumns⟩ := replaceColumn_columns hnumbered hold h
  have hname : c.m_columnName = column.m_columnName := by rw [withCharset_name hc]
  have hcode : st.codePlace t pl = some dest := by
    rw [TableMeta.moveOf, hplace] at hmove
    unfold TableMeta.targetOf at hmove
    cases pl with
    | unplaced =>
      show some ((st.oldPlace t).getD t.columnsCount) = some dest
      rw [hst, hplace]
      simp only [Placement.addAfter, Placement.isFirst, hplace] at hmove
      cases hmove
      rfl
    | first =>
      cases hmove
      rfl
    | after other =>
      simp only [Placement.addAfter, Placement.isFirst] at hmove
      cases hother : t.placeOf other with
      | none =>
        rw [hother] at hmove
        cases hmove
      | some p =>
        rw [hother] at hmove
        cases hmove
        exact hother
  have hlen : (t.m_columns.eraseIdx old.m_columnIndex).length = t.columnsCount - 1 :=
    List.length_eraseIdx_of_lt hstart
  refine ⟨_, hst.trans hplace, dest, hcode, by omega, c, hname, (withCharset_spec hc).2, ?_⟩
  rw [hcolumns]
  exact unnumbered_moveColumn ..

theorem call_placed (hnumbered : Numbered t.m_columns) (hcount : t.columnsCount < 2 ^ 16)
    (h : t.call (st.call pl) = .ok (0, t')) :
    (st.oldPlace t = none ∧ 65535 ≤ t.columnsCount ∧ t'.m_columns = []) ∨
      (st.oldPlace t = none → t.columnsCount < 65535) ∧
        ∃ place ∈ st.codePlace t pl, PlacedAt t' (st.others t) st.column place := by
  cases st with
  | add column =>
    obtain ⟨-, hfull, hroom⟩ := addColumn_placed hnumbered hcount h
    obtain hlt | hge := Nat.lt_or_ge t.columnsCount 65535
    · exact .inr ⟨fun _ => hlt, hroom hlt⟩
    · exact .inl ⟨rfl, hge, hfull hge⟩
  | modify column =>
    replace h : t.modifyColumn column pl.isFirst pl.addAfter = .ok (0, t') := h
    unfold TableMeta.modifyColumn at h
    split at h
    · cases h
    case h_2 old hold =>
      obtain ⟨start, hstart, hplaced⟩ := replaceColumn_placed (.modify column) hnumbered hold rfl h
      have hothers : ColumnStatement.others (.modify column) t = t.m_columns.eraseIdx start := by
        rw [ColumnStatement.others, Option.mem_def.mp hstart]
      rw [hothers]
      exact .inr ⟨fun hnone => (nomatch hstart.symm.trans hnone), hplaced⟩
  | change newColumn columnName =>
    replace h : t.changeColumn newColumn columnName pl.isFirst pl.addAfter = .ok (0, t') := h
    unfold TableMeta.changeColumn at h
    split at h
    · cases h
    case h_2 old hold =>
      split at h
      · cases h
      · obtain ⟨start, hstart, hplaced⟩ :=
          replaceColumn_placed (.change newColumn columnName) hnumbered hold rfl h
        have hothers : ColumnStatement.others (.change newColumn columnName) t =
            t.m_columns.eraseIdx start := by
          rw [ColumnStatement.others, Option.mem_def.mp hstart]
        rw [hothers]
        exact .inr ⟨fun hnone => (nomatch hstart.symm.trans hnone), hplaced⟩

/-! ## Where the places differ -/

/-- In front of the old place no other column has the name of the new one. -/
theorem call_newName (hnumbered : Numbered t.m_columns) (hcount : t.columnsCount < 2 ^ 16)
    (h : t.call (st.call pl) = .ok (0, t')) {p : Nat} {c : ColumnMeta} (hc : t.m_columns[p]? = some c)
    (hp : ∀ start ∈ st.oldPlace t, p < start) : c.m_columnName ≠ st.column.m_columnName := by
  intro heq
  have hself : nameEq t.caseSensitive c.m_columnName st.column.m_columnName = true := by
    rw [heq]
    exact nameEq_self ..
  cases st with
  | add column =>
    obtain ⟨hnone, -⟩ := addColumn_placed hnumbered hcount h
    exact Bool.false_ne_true ((not_nameEq_of_none hnone hc).symm.trans hself)
  | modify column =>
    replace h : t.modifyColumn column pl.isFirst pl.addAfter = .ok (0, t') := h
    unfold TableMeta.modifyColumn at h
    split at h
    · cases h
    case h_2 old hold =>
      obtain ⟨start, hstart, -⟩ := replaceColumn_placed (.modify column) hnumbered hold rfl h
      have hne := not_nameEq_of_lt hstart (hp start hstart) hc
      exact Bool.false_ne_true (hne.symm.trans hself)
  | change newColumn columnName =>
    replace h : t.changeColumn newColumn columnName pl.isFirst pl.addAfter = .ok (0, t') := h
    unfold TableMeta.changeColumn at h
    split at h
    · cases h
    case h_2 old hold =>
      split at h
      · cases h
      case isFalse hnew =>
        obtain ⟨start, hstart, -⟩ :=
          replaceColumn_placed (.change newColumn columnName) hnumbered hold rfl h
        by_cases hsame : nameEq t.caseSensitive columnName newColumn.m_columnName = true
        · -- the new name is the old one, which no column in front has
          have hold' := nameEq_trans hself (nameEq_symm hsame)
          have hne := not_nameEq_of_lt hstart (hp start hstart) hc
          exact Bool.false_ne_true (hne.symm.trans hold')
        · have hnone : t.getColumn newColumn.m_columnName = none := by
            simpa [hsame] using hnew
          exact Bool.false_ne_true ((not_nameEq_of_none hnone hc).symm.trans hself)

private theorem wantedPlace_eq (h : ∀ name, pl = .after name →
    ∃ start ∈ st.oldPlace t, ∃ p ∈ t.placeOf name, start ≤ p) :
    st.wantedPlace t pl = st.codePlace t pl := by
  cases pl with
  | unplaced => rfl
  | first => rfl
  | after name =>
    obtain ⟨start, hstart, p, hp, hle⟩ := h name rfl
    simp only [ColumnStatement.wantedPlace, ColumnStatement.codePlace, Option.mem_def.mp hstart,
      Option.mem_def.mp hp, Option.map_some, if_pos hle]

private theorem wantedPlace_succ {name : String} {p : Nat} (hp : t.placeOf name = some p)
    (hstart : ∀ start ∈ st.oldPlace t, p < start) :
    st.wantedPlace t (.after name) = some (p + 1) ∧ (st.others t)[p]? = t.m_columns[p]? := by
  unfold ColumnStatement.wantedPlace ColumnStatement.others
  cases hold : st.oldPlace t with
  | none =>
    refine ⟨?_, rfl⟩
    simp [hp]
  | some start =>
    have hlt := hstart start hold
    refine ⟨?_, List.getElem?_eraseIdx_of_lt hlt⟩
    simp [hp, if_neg (Nat.not_le.mpr hlt)]

theorem not_placedAt_succ {columns : List ColumnMeta} {p : Nat} (h : PlacedAt t columns column p)
    (h' : PlacedAt t columns column (p + 1)) :
    ∃ c : ColumnMeta, columns[p]? = some c ∧ c.m_columnName = column.m_columnName := by
  obtain ⟨hle, c, hname, -, hcolumns⟩ := h
  obtain ⟨hle', c', -, -, hcolumns'⟩ := h'
  have hget := congrArg (fun l : List ColumnMeta => l[p]?) (hcolumns.symm.trans hcolumns')
  simp only [List.getElem?_map] at hget
  rw [List.getElem?_insertIdx_self, if_pos hle, List.getElem?_insertIdx_of_lt (Nat.lt_succ_self p),
    List.getElem?_eq_getElem hle'] at hget
  have hsame : c.m_columnName = columns[p].m_columnName :=
    by
    have hsame : unnumbered c = unnumbered columns[p] := Option.some.inj hget
    show (unnumbered c).m_columnName = (unnumbered columns[p]).m_columnName
    rw [hsame]
  exact ⟨columns[p], List.getElem?_eq_getElem hle', hsame.symm.trans hname⟩

/-! ## Statements -/

theorem honoured_of_follows (hnumbered : Numbered t.m_columns) (hcount : t.columnsCount < 2 ^ 16)
    (hcall : t.call (st.call pl) = .ok (0, t')) (hfollows : Follows t t' st pl) :
    Honoured t st pl := by
  obtain ⟨want, hwant, hplaced⟩ := hfollows
  rcases call_placed hnumbered hcount hcall with ⟨-, -, hnil⟩ | ⟨hroom, code, hcode, hdone⟩
  · -- a column that is placed is there
    obtain ⟨hle, c, -, -, hcolumns⟩ := hplaced
    have hlen := congrArg List.length hcolumns
    rw [hnil, List.length_map, List.length_map, List.length_insertIdx, if_pos hle] at hlen
    cases hlen
  · refine ⟨hroom, fun name hafter => ?_⟩
    subst hafter
    by_contra hnot
    have hbefore : ∀ start ∈ st.oldPlace t, code < start := fun start hstart =>
      Nat.not_le.mp fun hle => hnot ⟨start, hstart, code, hcode, hle⟩
    obtain ⟨hsucc, hothers⟩ := wantedPlace_succ hcode hbefore
    obtain rfl : code + 1 = want := Option.some.inj (hsucc.symm.trans hwant)
    obtain ⟨c, hc, hname⟩ := not_placedAt_succ hdone hplaced
    rw [hothers] at hc
    exact call_newName hnumbered hcount hcall hc hbefore hname

theorem follows_of_honoured (hnumbered : Numbered t.m_columns) (hcount : t.columnsCount < 2 ^ 16)
    (hcall : t.call (st.call pl) = .ok (0, t')) (hhonoured : Honoured t st pl) :
    Follows t t' st pl := by
  obtain ⟨hroom, hafter⟩ := hhonoured
  rcases call_placed hnumbered hcount hcall with ⟨hadd, hfull, -⟩ | ⟨-, code, hcode, hdone⟩
  · have hlt := hroom hadd
    omega
  · rw [← wantedPlace_eq hafter] at hcode
    exact ⟨code, hcode, hdone⟩

/-- A statement that succeeds is followed if and only if its column does not come after one that was
    in front of it, is not added after another one, and is not added behind 65535 columns. -/
theorem follows_iff (hnumbered : Numbered t.m_columns) (hcount : t.columnsCount < 2 ^ 16)
    (hcall : t.call (st.call pl) = .ok (0, t')) : Follows t t' st pl ↔ Honoured t st pl :=
  ⟨honoured_of_follows hnumbered hcount hcall, follows_of_honoured hnumbered hcount hcall⟩

/-- The first column is moved behind the last one. -/
theorem follows_iff_last : ∃ t', numbersTable.call (ColumnStatement.call
      (.modify (columnOf "a" .T_UINT32)) (.after "c")) = .ok (0, t') ∧
    Follows numbersTable t' (.modify (columnOf "a" .T_UINT32)) (.after "c") := by
  have hplaces := described_numbersTable.places
  refine ⟨_, rfl, (follows_iff hplaces (by decide) rfl).mpr ⟨fun hnone => ?_, fun name hname => ?_⟩⟩
  · cases hnone
  · cases hname
    exact ⟨0, rfl, 2, rfl, by decide⟩

/-- A statement succeeds and is not followed. -/
def Misplaced (st : ColumnStatement) (pl : Placement) : Prop :=
  ∃ t', numbersTable.call (st.call pl) = .ok (0, t') ∧ ¬Follows numbersTable t' st pl

/-- A column that is added or moved to the left with `AFTER` comes in front of the column it should
    come after. -/
theorem misplaced_after : Misplaced (.add (columnOf "d" .T_UINT32)) (.after "a") ∧
    Misplaced (.modify (columnOf "c" .T_UINT32)) (.after "a") ∧
    Misplaced (.change (columnOf "d" .T_UINT32) "c") (.after "a") := by
  have hplaces := described_numbersTable.places
  refine ⟨⟨_, rfl, fun hfollows => ?_⟩, ⟨_, rfl, fun hfollows => ?_⟩, ⟨_, rfl, fun hfollows => ?_⟩⟩
  · obtain ⟨start, hstart, -⟩ :=
      (honoured_of_follows hplaces (by decide) rfl hfollows).2 "a" rfl
    cases hstart
  · obtain ⟨start, hstart, p, hp, hle⟩ :=
      (honoured_of_follows hplaces (by decide) rfl hfollows).2 "a" rfl
    cases hstart
    cases hp
    exact absurd hle (by decide)
  · obtain ⟨start, hstart, p, hp, hle⟩ :=
      (honoured_of_follows hplaces (by decide) rfl hfollows).2 "a" rfl
    cases hstart
    cases hp
    exact absurd hle (by decide)

end DBStream.Native.Meta
