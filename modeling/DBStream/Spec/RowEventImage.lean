import DBStream.Native.RowEventParser
import Mathlib.Data.Nat.Count

/-!
# Images of rows

An image of a row as MySQL writes it, and what `parseRowData` makes of it.  MySQL writes a null
bitmap with one bit for each column that is present, and then the values of the columns that are
present and not null.  The parser reads a bitmap with one bit for each column of the table.
-/

namespace DBStream.Native.DATA_SOURCE

open Meta

/-! ## The encoding -/

/-- How the values of a column are written, and which values it has. -/
structure ColumnEncoding where
  encode : List UInt8 → List UInt8
  Valid : List UInt8 → Prop

/-- A parser of a column stores and consumes exactly its own encoded value. -/
structure Reads (e : ColumnEncoding)
    (parse : List UInt8 → Exec (Option (List UInt8 × List UInt8))) : Prop where
  value : ∀ v, e.Valid v → ∀ rest, parse (e.encode v ++ rest) = .ok (some (v, rest))
  exact : ∀ data v rest, parse data = .ok (some (v, rest)) → data = e.encode v ++ rest

/-- The values of the columns of a row; a column that is null or not present is `none`. -/
abbrev Row := List (Option (List UInt8))

/-- The values of a row that are not null, one behind the other. -/
def encodeRow : List ColumnEncoding → Row → List UInt8
  | e :: E, some v :: row => e.encode v ++ encodeRow E row
  | _ :: E, none :: row => encodeRow E row
  | _, _ => []

@[simp] theorem encodeRow_nil (row : Row) : encodeRow [] row = [] := by cases row <;> rfl

@[simp] theorem encodeRow_some (e : ColumnEncoding) (E : List ColumnEncoding) (v : List UInt8)
    (row : Row) : encodeRow (e :: E) (some v :: row) = e.encode v ++ encodeRow E row := rfl

@[simp] theorem encodeRow_none (e : ColumnEncoding) (E : List ColumnEncoding) (row : Row) :
    encodeRow (e :: E) (none :: row) = encodeRow E row := rfl

/-- The values are values of their columns. -/
def RowValid (E : List ColumnEncoding) (row : Row) : Prop :=
  List.Forall₂ (fun e value => ∀ v, value = some v → e.Valid v) E row

def bit (bitmap : List UInt8) (i : Nat) : Bool := (bitmap.getD (i / 8) 0).toNat.testBit (i % 8)

/-- How many of the columns in front of column `i` are present. -/
def rank (present : Nat → Bool) (i : Nat) : Nat := Nat.count (fun j => present j = true) i

/-- An image of a row: its null bitmap and its values. -/
structure Image where
  nulls : List UInt8
  row : Row

namespace Image

variable (E : List ColumnEncoding) (present : Nat → Bool) (im : Image)

def value (i : Nat) : Option (List UInt8) := im.row.getD i none

def bytes : List UInt8 := im.nulls ++ encodeRow E im.row

/-- The image is one of MySQL with these columns: the null bitmap has a bit for each of them, in the
    order of the columns.  The other bits of the bitmap are whatever they are. -/
structure Of : Prop where
  length_nulls : im.nulls.length = (rank present E.length + 7) / 8
  valid : RowValid E im.row
  absent : ∀ i, i < E.length → present i = false → im.value i = none
  null : ∀ i, i < E.length → present i = true →
    bit im.nulls (rank present i) = (im.value i).isNone

/-- The parser's reading of the null bitmap comes to the same: the bitmap has as many bytes as one
    for all columns, and each column that is present has the same bit at its own number. -/
def Readable : Prop :=
  (E.length + 7) / 8 = (rank present E.length + 7) / 8 ∧
    ∀ i, i < E.length → present i = true → bit im.nulls i = bit im.nulls (rank present i)

instance : Decidable (Readable E present im) := inferInstanceAs (Decidable (_ ∧ _))

end Image

/-! ## Bits -/

theorem bit_append {bitmap : List UInt8} {i : Nat} (h : i / 8 < bitmap.length) (rest : List UInt8) :
    bit (bitmap ++ rest) i = bit bitmap i := by
  simp only [bit, List.getD_eq_getElem?_getD, List.getElem?_append_left h]

theorem bitAt_eq_ok {bitmap : List UInt8} {i : Nat} {b : Bool} (h : bitAt bitmap i = .ok b) :
    b = bit bitmap i := by
  simp only [bitAt, tableAt] at h
  cases hget : bitmap[i / 8]? with
  | none => simp [hget, bind, Except.bind] at h
  | some byte =>
    simp only [hget, Exec.ok_bind, Exec.pure_eq, Except.ok.injEq] at h
    simp [bit, List.getD_eq_getElem?_getD, hget, ← h]

theorem bitAt_of_lt {bitmap : List UInt8} {i : Nat} (h : i / 8 < bitmap.length) :
    bitAt bitmap i = .ok (bit bitmap i) := by
  simp [bitAt, tableAt, bit, List.getD_eq_getElem?_getD, List.getElem?_eq_getElem h]

theorem rank_of_all {present : Nat → Bool} {n i : Nat} (h : ∀ j, j < n → present j = true)
    (hi : i ≤ n) : rank present i = i :=
  Nat.count_iff_forall.mpr fun j hj => h j (by omega)

theorem Image.readable_of_all {E : List ColumnEncoding} {present : Nat → Bool}
    (h : ∀ i, i < E.length → present i = true) (im : Image) : im.Readable E present := by
  constructor
  · rw [rank_of_all h le_rfl]
  · intro i hi _
    rw [rank_of_all h hi.le]

/-! ## The columns of an image -/

variable {p : BinlogEventParser} {E : List ColumnEncoding} {present : Nat → Bool}

/-- The real types of the columns have parsers, which read the encodings of the columns. -/
inductive Parsable (p : BinlogEventParser) :
    Nat → List (UInt8 × ColumnMeta) → List ColumnEncoding → Prop where
  | nil (metaIndex : Nat) : Parsable p metaIndex [] []
  | cons {metaIndex : Nat} {type : UInt8} {columnMeta : ColumnMeta} {ctype : Nat}
      {columns : List (UInt8 × ColumnMeta)} {e : ColumnEncoding} {E : List ColumnEncoding} :
      getRealType type.toNat columnMeta.m_srcColumnType p.m_tableMap.metaInfo metaIndex =
        .ok ctype →
      ctype ∈ parsedTypes → Reads e (p.parseFunc ctype columnMeta) →
      Parsable p (metaIndex + metaLength ctype) columns E →
      Parsable p metaIndex ((type, columnMeta) :: columns) (e :: E)

theorem Parsable.length_eq {metaIndex : Nat} {columns : List (UInt8 × ColumnMeta)}
    (h : Parsable p metaIndex columns E) : columns.length = E.length := by
  induction h with
  | nil => rfl
  | cons _ _ _ _ ih => simp [ih]

/-- A value is null where the parser takes its column to be so. -/
def Marks (columnBitmap nullBitMap : List UInt8) (idx : Nat) (row : Row) : Prop :=
  ∀ j, j < row.length →
    (row.getD j none).isNone = (!bit columnBitmap (idx + j) || bit nullBitMap (idx + j))

theorem marks_cons {columnBitmap nullBitMap : List UInt8} {idx : Nat} {value : Option (List UInt8)}
    {row : Row} :
    Marks columnBitmap nullBitMap idx (value :: row) ↔
      value.isNone = (!bit columnBitmap idx || bit nullBitMap idx) ∧
        Marks columnBitmap nullBitMap (idx + 1) row := by
  constructor
  · intro h
    constructor
    · simpa using h 0 (by simp)
    · intro j hj
      have hsucc := h (j + 1) (by simpa using hj)
      rw [show idx + 1 + j = idx + (j + 1) by omega]
      simpa using hsucc
  · rintro ⟨hvalue, hrow⟩ j hj
    cases j with
    | zero => simpa using hvalue
    | succ j =>
      have hj' := hrow j (by simpa using hj)
      rw [show idx + 1 + j = idx + (j + 1) by omega] at hj'
      simpa using hj'

variable {columnBitmap nullBitMap data rest : List UInt8} {idx metaIndex ctype : Nat}
  {columnMeta : ColumnMeta} {columns : List (UInt8 × ColumnMeta)} {value : Option (List UInt8)}
  {row : Row}

private theorem nullAt_eq_ok {b : Bool} (h : nullAt columnBitmap nullBitMap idx = .ok b) :
    b = (!bit columnBitmap idx || bit nullBitMap idx) := by
  obtain ⟨present, hpresent, h⟩ := Exec.of_bind h
  rw [← bitAt_eq_ok hpresent]
  cases present with
  | false => simpa using h.symm
  | true => simpa using bitAt_eq_ok h

private theorem nullAt_of_lt (hcolumn : idx / 8 < columnBitmap.length)
    (hnull : idx / 8 < nullBitMap.length) :
    nullAt columnBitmap nullBitMap idx = .ok (!bit columnBitmap idx || bit nullBitMap idx) := by
  simp only [nullAt, bitAt_of_lt hcolumn, bitAt_of_lt hnull, Exec.ok_bind]
  cases bit columnBitmap idx <;> rfl

theorem parseColumn_eq_ok {e : ColumnEncoding} (hreads : Reads e (p.parseFunc ctype columnMeta))
    (h : p.parseColumn columnBitmap nullBitMap idx ctype columnMeta data =
      .ok (.ok (value, rest))) :
    value.isNone = (!bit columnBitmap idx || bit nullBitMap idx) ∧
      data = encodeRow [e] [value] ++ rest := by
  obtain ⟨isNull, hnull, h⟩ := Exec.of_bind h
  rw [← nullAt_eq_ok hnull]
  cases isNull with
  | true =>
    obtain ⟨rfl, rfl⟩ := h
    simp
  | false =>
    simp only [Bool.false_eq_true, if_false] at h
    split at h
    · simp at h
    · obtain ⟨parsed, hparse, h⟩ := Exec.of_bind h
      cases parsed with
      | none => simp at h
      | some parsed =>
        obtain ⟨rfl, rfl⟩ := h
        simpa using hreads.exact _ _ _ hparse

private theorem parseColumn_of_marks {e : ColumnEncoding} (hparsed : ctype ∈ parsedTypes)
    (hreads : Reads e (p.parseFunc ctype columnMeta)) (hvalid : ∀ v, value = some v → e.Valid v)
    (hcolumn : idx / 8 < columnBitmap.length) (hnull : idx / 8 < nullBitMap.length)
    (hmark : value.isNone = (!bit columnBitmap idx || bit nullBitMap idx)) (rest : List UInt8) :
    p.parseColumn columnBitmap nullBitMap idx ctype columnMeta (encodeRow [e] [value] ++ rest) =
      .ok (.ok (value, rest)) := by
  simp only [BinlogEventParser.parseColumn, nullAt_of_lt hcolumn hnull, Exec.ok_bind, ← hmark]
  cases value with
  | none => simp
  | some v =>
    have hparse := hreads.value v (hvalid v rfl) rest
    simp [hparsed, hparse]

theorem encodeRow_cons (e : ColumnEncoding) (value : Option (List UInt8)) (row : Row) :
    encodeRow (e :: E) (value :: row) = encodeRow [e] [value] ++ encodeRow E row := by
  cases value <;> simp

theorem parseColumns_eq_ok (hparsable : Parsable p metaIndex columns E)
    (h : p.parseColumns columnBitmap nullBitMap idx metaIndex columns data =
      .ok (.ok (row, rest))) :
    row.length = E.length ∧ Marks columnBitmap nullBitMap idx row ∧
      data = encodeRow E row ++ rest := by
  induction hparsable generalizing idx data row with
  | nil =>
    cases h
    exact ⟨rfl, fun j hj => absurd hj (Nat.not_lt_zero j), rfl⟩
  | @cons metaIndex type columnMeta ctype columns e E hreal hparsed hreads hparsable ih =>
    simp only [BinlogEventParser.parseColumns, hreal, Exec.ok_bind] at h
    obtain ⟨first, hfirst, h⟩ := Exec.of_bind h
    cases first with
    | error status => simp at h
    | ok first =>
      obtain ⟨value, data'⟩ := first
      obtain ⟨others, hothers, h⟩ := Exec.of_bind h
      cases others with
      | error status => simp at h
      | ok others =>
        obtain ⟨row', rest'⟩ := others
        obtain ⟨rfl, rfl⟩ := h
        obtain ⟨hmark, hdata⟩ := parseColumn_eq_ok hreads hfirst
        obtain ⟨hlength, hmarks, hdata'⟩ := ih hothers
        refine ⟨by simp [hlength], marks_cons.mpr ⟨hmark, hmarks⟩, ?_⟩
        rw [hdata, hdata', encodeRow_cons e value row', List.append_assoc]

theorem parseColumns_of_marks (hparsable : Parsable p metaIndex columns E) (hvalid : RowValid E row)
    (hcolumn : idx + E.length ≤ 8 * columnBitmap.length)
    (hnull : idx + E.length ≤ 8 * nullBitMap.length)
    (hmarks : Marks columnBitmap nullBitMap idx row) :
    p.parseColumns columnBitmap nullBitMap idx metaIndex columns (encodeRow E row ++ rest) =
      .ok (.ok (row, rest)) := by
  induction hparsable generalizing idx row with
  | nil =>
    cases hvalid
    rfl
  | @cons metaIndex type columnMeta ctype columns e E hreal hparsed hreads hparsable ih =>
    obtain _ | @⟨_, value, _, row, hvalue, hvalid⟩ := hvalid
    obtain ⟨hmark, hmarks⟩ := marks_cons.mp hmarks
    rw [List.length_cons] at hcolumn hnull
    have hfirst := parseColumn_of_marks hparsed hreads hvalue (by omega) (by omega) hmark
      (encodeRow E row ++ rest)
    have hothers := ih hvalid (by omega) (by omega) hmarks
    rw [encodeRow_cons, List.append_assoc]
    simp [BinlogEventParser.parseColumns, hreal, hfirst, hothers]

theorem parseColumns_ne_OK :
    p.parseColumns columnBitmap nullBitMap idx metaIndex columns data ≠ .ok (.error .OK) := by
  induction columns generalizing idx metaIndex data with
  | nil => simp [BinlogEventParser.parseColumns]
  | cons column columns ih =>
    intro h
    obtain ⟨ctype, -, h⟩ := Exec.of_bind h
    obtain ⟨first, hfirst, h⟩ := Exec.of_bind h
    cases first with
    | error status =>
      simp only [Exec.pure_eq, Except.ok.injEq, Except.error.injEq] at h
      subst h
      obtain ⟨isNull, -, hfirst⟩ := Exec.of_bind hfirst
      split at hfirst
      · simp at hfirst
      · split at hfirst
        · simp at hfirst
        · obtain ⟨parsed, -, hfirst⟩ := Exec.of_bind hfirst
          cases parsed <;> simp at hfirst
    | ok first =>
      obtain ⟨others, hothers, h⟩ := Exec.of_bind h
      cases others with
      | error status =>
        simp only [Exec.pure_eq, Except.ok.injEq, Except.error.injEq] at h
        subst h
        exact ih hothers
      | ok others => simp at h

/-! ## The image of a row -/

/-- The table of the metadata has the columns of the table map, and these encodings. -/
structure TableMatches (p : BinlogEventParser) (m : Meta.TableMeta) (E : List ColumnEncoding) :
    Prop where
  count : m.columnsCount = p.m_tableMap.columnCount
  parsable : Parsable p 0 (p.m_tableMap.types.zip m.m_columns) E

variable {m : Meta.TableMeta} {nulls : List UInt8} {im : Image}

theorem TableMatches.columnCount (h : TableMatches p m E) :
    p.m_tableMap.columnCount = E.length := by
  have hcount := h.count
  have hlength := h.parsable.length_eq
  simp only [Meta.TableMeta.columnsCount, TableMap.columnCount, List.length_zip] at hcount hlength ⊢
  omega

theorem Marks.congr {nullBitMap' : List UInt8}
    (hsame : ∀ j, j < row.length → bit nullBitMap' (idx + j) = bit nullBitMap (idx + j))
    (h : Marks columnBitmap nullBitMap idx row) : Marks columnBitmap nullBitMap' idx row := by
  intro j hj
  rw [hsame j hj]
  exact h j hj

theorem parseRowData_eq_ok (hm : TableMatches p m E)
    (h : p.parseRowData m columnBitmap data = .ok (.ok (row, rest))) :
    ∃ nulls, nulls.length = (E.length + 7) / 8 ∧ data = nulls ++ encodeRow E row ++ rest ∧
      row.length = E.length ∧ Marks columnBitmap nulls 0 row := by
  simp only [BinlogEventParser.parseRowData, advance, hm.columnCount] at h
  by_cases hroom : (E.length + 7) / 8 ≤ data.length
  · simp only [hroom, if_true, Exec.ok_bind] at h
    obtain ⟨hlength, hmarks, hdata⟩ := parseColumns_eq_ok hm.parsable h
    have htake : (data.take ((E.length + 7) / 8)).length = (E.length + 7) / 8 :=
      List.length_take_of_le hroom
    refine ⟨data.take ((E.length + 7) / 8), htake, ?_, hlength, hmarks.congr fun j hj => ?_⟩
    · rw [List.append_assoc, ← hdata, List.take_append_drop]
    · have hbit : bit (data.take ((E.length + 7) / 8) ++ data.drop ((E.length + 7) / 8)) (0 + j) =
          bit (data.take ((E.length + 7) / 8)) (0 + j) := bit_append (by omega) _
      rw [List.take_append_drop] at hbit
      exact hbit.symm
  · simp [hroom, bind, Except.bind] at h

theorem parseRowData_of_marks (hm : TableMatches p m E) (hvalid : RowValid E row)
    (hcolumn : E.length ≤ 8 * columnBitmap.length) (hnulls : nulls.length = (E.length + 7) / 8)
    (hmarks : Marks columnBitmap nulls 0 row) :
    p.parseRowData m columnBitmap (nulls ++ encodeRow E row ++ rest) = .ok (.ok (row, rest)) := by
  have hlength : row.length = E.length := hvalid.length_eq.symm
  have hadvance : advance ((E.length + 7) / 8) (nulls ++ (encodeRow E row ++ rest)) =
      .ok (encodeRow E row ++ rest) := by
    simp [advance, ← hnulls]
  have hmarks' : Marks columnBitmap (nulls ++ (encodeRow E row ++ rest)) 0 row :=
    hmarks.congr fun j hj => bit_append (by omega) _
  rw [List.append_assoc]
  simp only [BinlogEventParser.parseRowData, hm.columnCount, hadvance, Exec.ok_bind]
  exact parseColumns_of_marks hm.parsable hvalid (by omega)
    (by rw [List.length_append]; omega) hmarks'

namespace Image

theorem Of.length_row (h : im.Of E present) : im.row.length = E.length := h.valid.length_eq.symm

/-- The parser takes the right columns to be null just when the bits at the numbers of the columns
    are those at their ranks. -/
theorem Of.marks_iff (h : im.Of E present)
    (hcolumn : ∀ i, i < E.length → bit columnBitmap i = present i) :
    Marks columnBitmap nulls 0 im.row ↔
      ∀ i, i < E.length → present i = true → bit nulls i = bit im.nulls (rank present i) := by
  have hbit : ∀ i, i < E.length → ((im.row.getD i none).isNone =
      (!bit columnBitmap (0 + i) || bit nulls (0 + i)) ↔
        (present i = true → bit nulls i = bit im.nulls (rank present i))) := by
    intro i hi
    rw [Nat.zero_add, hcolumn i hi]
    cases hpresent : present i with
    | false =>
      have habsent := h.absent i hi hpresent
      rw [value] at habsent
      rw [habsent]
      simp
    | true =>
      have hnull := h.null i hi hpresent
      rw [value] at hnull
      rw [← hnull]
      simp [eq_comm]
  constructor
  · intro hmarks i hi
    exact (hbit i hi).mp (hmarks i (by rw [h.length_row]; exact hi))
  · intro hall j hj
    rw [h.length_row] at hj
    exact (hbit j hj).mpr (hall j hj)

/-- A row with the values of the columns that are present, and null otherwise, is that of the
    image. -/
theorem Of.row_eq (h : im.Of E present)
    (hcolumn : ∀ i, i < E.length → bit columnBitmap i = present i) (hlength : row.length = E.length)
    (hmarks : Marks columnBitmap nulls 0 row)
    (hvalues : ∀ i, i < E.length → present i = true → row.getD i none = im.value i) :
    row = im.row := by
  apply List.ext_getElem (by rw [hlength, h.length_row])
  intro i hi hi'
  have hvalue : row.getD i none = im.value i := by
    cases hpresent : present i with
    | true => exact hvalues i (by omega) hpresent
    | false =>
      have hmark := hmarks i hi
      rw [Nat.zero_add, hcolumn i (by omega), hpresent] at hmark
      rw [h.absent i (by omega) hpresent]
      simpa using hmark
  simpa [value, List.getD_eq_getElem?_getD, List.getElem?_eq_getElem hi,
    List.getElem?_eq_getElem hi'] using hvalue

theorem Of.parse (h : im.Of E present) (hm : TableMatches p m E)
    (hroom : E.length ≤ 8 * columnBitmap.length)
    (hcolumn : ∀ i, i < E.length → bit columnBitmap i = present i) (hread : im.Readable E present)
    (rest : List UInt8) :
    p.parseRowData m columnBitmap (im.bytes E ++ rest) = .ok (.ok (im.row, rest)) :=
  parseRowData_of_marks hm h.valid hroom (h.length_nulls.trans hread.1.symm)
    ((h.marks_iff hcolumn).mpr hread.2)

theorem Of.parse_length (h : im.Of E present) (hm : TableMatches p m E)
    (hcolumn : ∀ i, i < E.length → bit columnBitmap i = present i)
    (hparse : p.parseRowData m columnBitmap data = .ok (.ok (row, rest)))
    (hvalues : ∀ i, i < E.length → present i = true → row.getD i none = im.value i) :
    data.length = (E.length + 7) / 8 + (encodeRow E im.row).length + rest.length := by
  obtain ⟨nulls, hnulls, hdata, hlength, hmarks⟩ := parseRowData_eq_ok hm hparse
  rw [hdata, h.row_eq hcolumn hlength hmarks hvalues, List.length_append, List.length_append,
    hnulls]

theorem Of.readable_of_parse (h : im.Of E present) (hm : TableMatches p m E)
    (hcolumn : ∀ i, i < E.length → bit columnBitmap i = present i)
    (hwidth : (E.length + 7) / 8 = (rank present E.length + 7) / 8) {rest' : List UInt8}
    (hparse : p.parseRowData m columnBitmap (im.bytes E ++ rest) = .ok (.ok (row, rest')))
    (hvalues : ∀ i, i < E.length → present i = true → row.getD i none = im.value i) :
    im.Readable E present ∧ rest' = rest := by
  obtain ⟨nulls, hnulls, hdata, hlength, hmarks⟩ := parseRowData_eq_ok hm hparse
  have hrow := h.row_eq hcolumn hlength hmarks hvalues
  rw [hrow] at hdata hmarks
  rw [bytes, List.append_assoc, List.append_assoc] at hdata
  obtain ⟨hsame, hrest⟩ := List.append_inj hdata
    (h.length_nulls.trans (hwidth.symm.trans hnulls.symm))
  rw [← hsame] at hmarks
  exact ⟨⟨hwidth, (h.marks_iff hcolumn).mp hmarks⟩, (List.append_cancel_left hrest).symm⟩

end Image

end DBStream.Native.DATA_SOURCE
