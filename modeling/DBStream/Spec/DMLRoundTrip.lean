import DBStream.Spec.RowImage

/-!
# Round trip of row images

A row is written as an insert or delete record column by column, and loaded again.  `NewImage` is
what holds of the memory after some of the columns.  The row comes back as long as the fixed columns
take less than `2 ^ 16` bytes, since their offsets are stored as `uint16_t`, and the end of the record
is below `2 ^ 32`.
-/

namespace DBStream.Native

open Meta RowImage DMLRecord

/-! ## Rows -/

def cellOf (t : Meta.ColumnType) (value : Option (List UInt8)) : Cell where
  type := t
  bytes := value.getD (if t.info.fixed then List.replicate t.info.columnTypeSize 0 else [])

/-- What is written of the first columns. -/
def cells (ts : List Meta.ColumnType) (row : List (Option (List UInt8))) : List Cell :=
  List.zipWith cellOf ts row

/-- A value of a fixed column has the size of its type. -/
def ValueFits (t : Meta.ColumnType) (value : Option (List UInt8)) : Prop :=
  ∀ v, value = some v → t.info.fixed = true → v.length = t.info.columnTypeSize

/-- A row has a value or null for each column. -/
def RowFits (ts : List Meta.ColumnType) (row : List (Option (List UInt8))) : Prop :=
  List.Forall₂ ValueFits ts row

theorem RowFits.valueFits {ts : List Meta.ColumnType} {row : List (Option (List UInt8))} {i : Nat}
    {t : Meta.ColumnType} {value : Option (List UInt8)} (h : RowFits ts row) (ht : ts[i]? = some t)
    (hvalue : row[i]? = some value) : ValueFits t value := by
  obtain ⟨hi, rfl⟩ := List.getElem?_eq_some_iff.mp ht
  obtain ⟨hi', rfl⟩ := List.getElem?_eq_some_iff.mp hvalue
  exact h.get hi hi'

/-- The end of an image, from its start. -/
def imageEnd (ts : List Meta.ColumnType) (cs : List Cell) : Nat :=
  fixedSize ts + 4 * (varCount ts + 1) + dataSize cs

/-- Where the columns of a record are. -/
def columnsAt (m : Meta.TableMeta) : Nat := 46 + BITMAP_SIZE m.columnsCount

/-- The end of the last column of a record. -/
def recordEnd (m : Meta.TableMeta) (row : List (Option (List UInt8))) : Nat :=
  columnsAt m + imageEnd m.types (cells m.types row)

/-- Write a row as a record into memory that may hold anything. -/
def writeRow (mem : RawMemory) (m : Meta.TableMeta) (type : RecordType)
    (row : List (Option (List UInt8))) : Exec DMLRecord := do
  let r ← initRecord mem m type
  let r ← setColumns r 0 row
  r.finishedSet

/-- A record shows a value of a column. -/
structure Shows (r : DMLRecord) (i : Nat) (t : Meta.ColumnType) (value : Option (List UInt8)) :
    Prop where
  isNull : r.columnIsNull i = value.isNone
  columnNull : value = none → r.column i = .ok none
  columnValue : ∀ v, value = some v → ∃ p, r.column i = .ok (some p) ∧ r.mem.read p v.length = v
  size : t.info.fixed = false → r.varColumnSize i = .ok (value.getD []).length

/-- A record shows only one value of a column. -/
theorem Shows.value_eq {r : DMLRecord} {i : Nat} {t : Meta.ColumnType} {v w : Option (List UInt8)}
    (h : Shows r i t v) (h' : Shows r i t w) (hv : ValueFits t v) (hw : ValueFits t w) : v = w := by
  cases v with
  | none =>
    cases w with
    | none => rfl
    | some w => cases h.isNull.symm.trans h'.isNull
  | some v =>
    cases w with
    | none => cases h.isNull.symm.trans h'.isNull
    | some w =>
      obtain ⟨p, hp, hread⟩ := h.columnValue v rfl
      obtain ⟨q, hq, hread'⟩ := h'.columnValue w rfl
      cases hp.symm.trans hq
      have hlen : v.length = w.length := by
        cases hfixed : t.info.fixed with
        | true => exact (hv v rfl hfixed).trans (hw w rfl hfixed).symm
        | false => exact Except.ok.inj ((h.size hfixed).symm.trans (h'.size hfixed))
      rw [← hread, ← hread', hlen]

/-- A row that is written and loaded again has the values it had, and the size of the record is its
    end. -/
def RoundTrips (mem : RawMemory) (m : Meta.TableMeta) (type : RecordType)
    (row : List (Option (List UInt8))) : Prop :=
  ∃ w r, writeRow mem m type row = .ok w ∧ DMLRecord.load w.mem m = .ok r ∧
    (∀ i t value, m.types[i]? = some t → row[i]? = some value → Shows r i t value) ∧
    r.size = recordEnd m row

/-! ## Cells of a row -/

variable {m : Meta.TableMeta} {type : RecordType} {ts ts₁ ts₂ : List Meta.ColumnType}
  {t : Meta.ColumnType}
  {row row₁ row₂ : List (Option (List UInt8))} {value : Option (List UInt8)} {mem mem' : RawMemory}

theorem cells_append (h : ts₁.length = row₁.length) :
    cells (ts₁ ++ ts₂) (row₁ ++ row₂) = cells ts₁ row₁ ++ cells ts₂ row₂ :=
  List.zipWith_append h

theorem cells_prefix (h : ts₁.length = row.length) : cells (ts₁ ++ ts₂) row = cells ts₁ row := by
  have happend : cells (ts₁ ++ ts₂) (row ++ []) = cells ts₁ row ++ cells ts₂ [] := cells_append h
  simpa [cells] using happend

theorem types_cells (h : ts.length = row.length) : (cells ts row).map Cell.type = ts := by
  induction ts generalizing row with
  | nil => rfl
  | cons t ts ih =>
    cases row with
    | nil => cases h
    | cons value row =>
      have hrest := ih (Nat.succ.inj h)
      simpa [cells, cellOf] using hrest

theorem bytes_null_fixed (h : t.info.fixed = true) :
    (cellOf t none).bytes = List.replicate t.info.columnTypeSize 0 := if_pos h

theorem bytes_null_var (h : t.info.fixed = false) : (cellOf t none).bytes = [] := if_neg (by simp [h])

theorem fits_cellOf (h : ValueFits t value) : (cellOf t value).Fits := by
  intro hfixed
  cases value with
  | none =>
    rw [bytes_null_fixed (t := t) hfixed, List.length_replicate]
    rfl
  | some v => exact h v rfl hfixed

theorem fits_cells (h : RowFits ts row) : ∀ c ∈ cells ts row, c.Fits := by
  induction h with
  | nil => simp [cells]
  | cons hvalue _ ih =>
    intro c hc
    obtain rfl | hc := List.mem_cons.mp hc
    · exact fits_cellOf hvalue
    · exact ih c hc

/-! ## Writing the columns -/

/-- What is in front of the columns: the head, and the bitmap of the columns that are set. -/
structure Front (m : Meta.TableMeta) (type : RecordType) (row : List (Option (List UInt8)))
    (mem : RawMemory) : Prop where
  headSize : mem.readWord 1 5 = recordHeadSize
  type : mem.readWord 1 6 = type.code
  bits : ∀ j < m.columnsCount, mem.testBit 46 j = (row[j]?.join).isSome

/-- The columns of the row are written. -/
structure NewImage (m : Meta.TableMeta) (type : RecordType) (row : List (Option (List UInt8)))
    (mem : RawMemory) : Prop where
  front : Front m type row mem
  image : (ofCells (fixedSize m.types) (varCount m.types) (cells m.types row)).At mem (columnsAt m)
    (fixedSize m.types) (varCount m.types)

/-- The record that `initRecord` makes, in its memory. -/
def recordIn (m : Meta.TableMeta) (id : Nat) (mem : RawMemory) : DMLRecord :=
  { mem := mem, meta' := m, tableMetaID := id, nullBitmap := 46, columns := columnsAt m,
    varLengthColumns := columnsAt m + fixedSize m.types }

theorem div_lt_bitmapSize {i n : Nat} (h : i < n) : i / 8 < BITMAP_SIZE n := by
  have hshift : n >>> 3 = n / 8 := Nat.shiftRight_eq_div_pow n 3
  have hand : n &&& 0x7f = n % 128 := Nat.and_two_pow_sub_one_eq_mod n 7
  rw [BITMAP_SIZE, hshift, hand]
  split <;> omega

theorem Front.congr (h : Front m type row mem) (hsame : ∀ a < columnsAt m, mem' a = mem a) :
    Front m type row mem' := by
  have hread (p n : Nat) (hp : p + n ≤ columnsAt m) : mem'.read p n = mem.read p n :=
    RawMemory.read_congr fun a _ ha => hsame a (by omega)
  constructor
  · rw [RawMemory.readWord, hread 5 1 (by unfold columnsAt; omega)]
    exact h.headSize
  · rw [RawMemory.readWord, hread 6 1 (by unfold columnsAt; omega)]
    exact h.type
  · intro j hj
    rw [← h.bits j hj]
    refine RawMemory.testBit_congr (hsame _ ?_)
    have := div_lt_bitmapSize hj
    unfold columnsAt
    omega

theorem bits_concat (row : List (Option (List UInt8))) (value : Option (List UInt8)) (j : Nat) :
    ((row ++ [value])[j]?.join).isSome =
      if j = row.length then value.isSome else (row[j]?.join).isSome := by
  by_cases hj : j = row.length
  · subst hj
    simp
  · rw [if_neg hj]
    by_cases hlt : j < row.length
    · rw [List.getElem?_append_left hlt]
    · rw [List.getElem?_eq_none (by simp; omega), List.getElem?_eq_none (by omega)]

theorem Front.setBit (h : Front m type row mem) (v : List UInt8) :
    Front m type (row ++ [some v]) (mem.setBit 46 row.length) := by
  have hread (p n : Nat) (hp : p + n ≤ 46) : (mem.setBit 46 row.length).read p n = mem.read p n :=
    RawMemory.read_congr fun a _ ha => RawMemory.setBit_of_ne (by omega)
  constructor
  · rw [RawMemory.readWord, hread 5 1 (by omega)]
    exact h.headSize
  · rw [RawMemory.readWord, hread 6 1 (by omega)]
    exact h.type
  · intro j hj
    rw [RawMemory.testBit_setBit, bits_concat, h.bits j hj]
    by_cases hjr : j = row.length <;> simp [hjr]

theorem Front.clearBit (h : Front m type row mem) :
    Front m type (row ++ [none]) (mem.clearBit 46 row.length) := by
  have hread (p n : Nat) (hp : p + n ≤ 46) : (mem.clearBit 46 row.length).read p n = mem.read p n :=
    RawMemory.read_congr fun a _ ha => RawMemory.clearBit_of_ne (by omega)
  constructor
  · rw [RawMemory.readWord, hread 5 1 (by omega)]
    exact h.headSize
  · rw [RawMemory.readWord, hread 6 1 (by omega)]
    exact h.type
  · intro j hj
    rw [RawMemory.testBit_clearBit, bits_concat, h.bits j hj]
    by_cases hjr : j = row.length <;> simp [hjr]

theorem lt_columnsCount (hsplit : m.types = ts₁ ++ t :: ts₂) : ts₁.length < m.columnsCount := by
  have hall : m.types.length = m.columnsCount := List.length_map ..
  rw [← hall, hsplit, List.length_append, List.length_cons]
  omega

/-- What the code reads of a table for one of its columns. -/
structure ColumnAt (r : DMLRecord) (ts₁ : List Meta.ColumnType) (t : Meta.ColumnType) : Prop where
  type : r.columnType ts₁.length = .ok t
  fixed : t.info.fixed = true → r.realIndex ts₁.length = .ok (fixedCount ts₁) ∧
    r.fixedOffset ts₁.length = .ok (fixedSize ts₁) ∧ fixedCount ts₁ < r.meta'.columnsCount
  var : t.info.fixed = false → r.realIndex ts₁.length = .ok (varCount ts₁)

theorem columnType_of_split (r : DMLRecord) (hsplit : r.meta'.types = ts₁ ++ t :: ts₂) :
    r.columnType ts₁.length = .ok t := by
  have htype : (r.meta'.m_columns.map ColumnMeta.m_columnType)[ts₁.length]? = some t := by
    show r.meta'.types[ts₁.length]? = some t
    rw [hsplit]
    simp
  rw [List.getElem?_map] at htype
  obtain ⟨c, hc, rfl⟩ := Option.map_eq_some_iff.mp htype
  rw [columnType, tableAt_of_getElem? hc]
  rfl

theorem columnAt (r : DMLRecord) (hbuilt : Built r.meta') (hsize : fixedSize r.meta'.types < 2 ^ 16)
    (hsplit : r.meta'.types = ts₁ ++ t :: ts₂) : ColumnAt r ts₁ t := by
  constructor
  · exact columnType_of_split r hsplit
  · intro hfixed
    obtain ⟨hreal, hoffset⟩ := hbuilt.fixed hsplit hfixed
    have hle : fixedSize ts₁ ≤ fixedSize r.meta'.types := by
      rw [hsplit, fixedSize_append]
      exact Nat.le_add_right ..
    have hlt : fixedCount ts₁ < r.meta'.columnsCount :=
      Nat.lt_of_le_of_lt List.countP_le_length (lt_columnsCount hsplit)
    rw [Nat.mod_eq_of_lt (by omega)] at hoffset
    refine ⟨hreal, ?_, hlt⟩
    rw [fixedOffset, realIndex, hreal]
    exact hoffset
  · exact hbuilt.var hsplit

theorem init_spec (mem : RawMemory) (type : RecordType) :
    (((init mem).writeWord 1 6 type.code).writeWord 1 4 0).readWord 1 5 = recordHeadSize ∧
      (((init mem).writeWord 1 6 type.code).writeWord 1 4 0).readWord 1 6 = type.code := by
  have hcode : type.code < 256 ^ 1 := by cases type <;> decide
  have hsize : recordHeadSize < 256 ^ 1 := by decide
  constructor
  · unfold init
    simp (disch := omega) only [RawMemory.readWord_writeWord_of_disjoint]
    exact RawMemory.readWord_writeWord_self hsize
  · rw [RawMemory.readWord_writeWord_of_disjoint (by omega)]
    exact RawMemory.readWord_writeWord_self hcode

theorem initRecord_spec (hbuilt : Built m) (hsize : fixedSize m.types < 2 ^ 16) (type : RecordType)
    (mem : RawMemory) (hfits : imageEnd m.types [] < 2 ^ 32) :
    ∃ mem', initRecord mem m type = .ok (recordIn m m.m_id mem') ∧ NewImage m type [] mem' := by
  obtain ⟨hhead, htype⟩ := init_spec mem type
  unfold initRecord
  dsimp only
  generalize ((init mem).writeWord 1 6 type.code).writeWord 1 4 0 = head at hhead htype ⊢
  rw [hhead, hbuilt.total, Nat.mod_eq_of_lt hsize, Exec.ok_bind, hbuilt.varCount]
  -- the bitmap and the end of the image are behind the head
  let cleared := (head.writeWord 8 38 m.m_id).write 46 (List.replicate (BITMAP_SIZE m.columnsCount) 0)
  have hlast : columnsAt m + fixedSize m.types + 4 * (varCount m.types + 1) - columnsAt m =
      imageEnd m.types [] := by
    simp only [imageEnd, dataSize, List.map_nil, List.sum_nil]
    omega
  refine ⟨setOffset cleared (columnsAt m + fixedSize m.types) (varCount m.types)
    (imageEnd m.types []), ?_, ?_, ?_⟩
  · rw [← hlast]
    rfl
  · have hfront : Front m type [] cleared := by
      constructor
      · rw [RawMemory.readWord_write_of_disjoint (by omega),
          RawMemory.readWord_writeWord_of_disjoint (by omega), hhead]
      · rw [RawMemory.readWord_write_of_disjoint (by omega),
          RawMemory.readWord_writeWord_of_disjoint (by omega), htype]
      · intro j hj
        have hbyte := div_lt_bitmapSize hj
        exact RawMemory.testBit_of_zero (RawMemory.write_replicate (by omega) (by omega))
    exact hfront.congr fun a ha => RawMemory.write_of_lt (by omega)
  · constructor
    · simp [ofCells, cells, RawMemory.read]
    · intro r s hs
      simp [ofCells, cells] at hs
    · rw [offsetAt_setOffset_self hfits]
      simp [imageEnd, ofCells, cells, dataSize]
    · simp [ofCells, cells, RawMemory.read]

variable {id : Nat} {im : RowImage} {r : DMLRecord}

/-! ### One column -/

theorem setFixedColumn_eq (h : ColumnAt r ts₁ t) (hfixed : t.info.fixed = true) (v : List UInt8) :
    r.setFixedColumn ts₁.length v = .ok { r with
      mem := (r.mem.write (r.columns + fixedSize ts₁) v).setBit r.nullBitmap ts₁.length } := by
  obtain ⟨hreal, hoffset, hlt⟩ := h.fixed hfixed
  rw [setFixedColumn, hreal, Exec.ok_bind, if_neg (Nat.not_le.mpr hlt), hoffset]
  rfl

theorem setFixedColumnNull_eq (h : ColumnAt r ts₁ t) (hfixed : t.info.fixed = true) :
    r.setFixedColumnNull ts₁.length = .ok { r with
      mem := (r.mem.clearBit r.nullBitmap ts₁.length).write (r.columns + fixedSize ts₁)
        (List.replicate t.info.columnTypeSize 0) } := by
  rw [setFixedColumnNull, (h.fixed hfixed).2.1, h.type]
  rfl

theorem setVarColumnNull_eq (h : ColumnAt r ts₁ t) (hvar : t.info.fixed = false) {n : Nat}
    (hlast : offsetAt (r.mem.clearBit r.nullBitmap ts₁.length) r.varLengthColumns
      r.meta'.m_varColumnCount = n) :
    r.setVarColumnNull ts₁.length = .ok { r with
      mem := setOffset (r.mem.clearBit r.nullBitmap ts₁.length) r.varLengthColumns (varCount ts₁) n } := by
  rw [setVarColumnNull, h.var hvar, ← hlast]
  rfl

theorem setVarColumn_eq (h : ColumnAt r ts₁ t) (hvar : t.info.fixed = false)
    (hroom : varCount ts₁ ≠ r.meta'.m_varColumnCount) {n : Nat} (v : List UInt8)
    (hlast : offsetAt r.mem r.varLengthColumns r.meta'.m_varColumnCount = n)
    (hbehind : offsetAt (r.mem.write (r.columns + n) v) r.varLengthColumns
      r.meta'.m_varColumnCount = n) :
    r.setVarColumn ts₁.length v = .ok { r with
      mem := (setOffset (setOffset (r.mem.write (r.columns + n) v) r.varLengthColumns (varCount ts₁) n)
        r.varLengthColumns r.meta'.m_varColumnCount (n + v.length)).setBit r.nullBitmap ts₁.length } := by
  have hreal : realIndex { r with mem := r.mem.write (r.columns + n) v } ts₁.length =
      .ok (varCount ts₁) := h.var hvar
  unfold setVarColumn filledVarColumns
  dsimp only
  rw [hlast, hreal, Exec.ok_bind, hbehind, offsetAt_setOffset_of_ne (Ne.symm hroom), hbehind]
  rfl

theorem next_cells (hsplit : m.types = ts₁ ++ t :: ts₂) (hrow : RowFits ts₁ row) :
    Next (fixedSize m.types) (varCount m.types) ts₁ t
      (ofCells (fixedSize m.types) (varCount m.types) (cells ts₁ row)) := by
  have hlengths := length_ofCells (T := fixedSize m.types) (V := varCount m.types) (fits_cells hrow)
  rw [types_cells hrow.length_eq] at hlengths
  exact next_of_split hsplit hlengths.1 hlengths.2.1

/-- Setting a column adds it to the image. -/
theorem setColumn_spec (hbuilt : Built m) (hsize : fixedSize m.types < 2 ^ 16)
    (hsplit : m.types = ts₁ ++ t :: ts₂) (hrow : RowFits ts₁ row) (hvalue : ValueFits t value)
    (hfits : imageEnd m.types (cells ts₁ row ++ [cellOf t value]) < 2 ^ 32)
    (h : NewImage m type row mem) :
    ∃ mem', (recordIn m id mem).setColumn row.length value = .ok (recordIn m id mem') ∧
      NewImage m type (row ++ [value]) mem' := by
  have hlen : ts₁.length = row.length := hrow.length_eq
  have hcolumn := columnAt (recordIn m id mem) hbuilt hsize hsplit
  have hnext := next_cells hsplit hrow
  have hbit := div_lt_bitmapSize (lt_columnsCount hsplit)
  obtain ⟨hfront, himage⟩ := h
  have hcells : cells m.types row = cells ts₁ row := by rw [hsplit, cells_prefix hlen]
  have hcells' : cells m.types (row ++ [value]) = cells ts₁ row ++ [cellOf t value] := by
    rw [hsplit, cells_append hlen]
    simp [cells]
  rw [hcells] at himage
  have hdata : (ofCells (fixedSize m.types) (varCount m.types) (cells ts₁ row)).data.length =
      dataSize (cells ts₁ row) := (length_ofCells (fits_cells hrow)).2.2
  rw [imageEnd, dataSize_append, ← hdata] at hfits
  -- both parts of the new state
  have hdone {mem' : RawMemory} (hfront' : Front m type (row ++ [value]) mem')
      (himage' : (push (fixedSize m.types) (varCount m.types)
        (ofCells (fixedSize m.types) (varCount m.types) (cells ts₁ row)) (cellOf t value)).At mem'
          (columnsAt m) (fixedSize m.types) (varCount m.types)) :
      NewImage m type (row ++ [value]) mem' := by
    refine ⟨hfront', ?_⟩
    rw [hcells', ofCells_concat]
    exact himage'
  generalize ofCells (fixedSize m.types) (varCount m.types) (cells ts₁ row) = im at *
  have hset : ∀ a, columnsAt m ≤ a → a ≠ 46 + row.length / 8 := by
    intro a ha
    unfold columnsAt at ha
    omega
  unfold setColumn
  rw [← hlen, hcolumn.type, Exec.ok_bind]
  cases hfixed : t.info.fixed with
  | true =>
    cases value with
    | none =>
      refine ⟨_, setFixedColumnNull_eq hcolumn hfixed, hdone ?_ ?_⟩
      · rw [hlen]
        exact hfront.clearBit.congr fun a ha => RawMemory.write_of_lt (by simp only [recordIn]; omega)
      · have hcleared : im.At (mem.clearBit 46 row.length) (columnsAt m) (fixedSize m.types)
            (varCount m.types) := himage.congr_of_ge fun a ha => RawMemory.clearBit_of_ne (hset a ha)
        have hpush := hcleared.pushFixed (c := cellOf t none) hnext hfixed (fits_cellOf hvalue)
        rw [bytes_null_fixed hfixed] at hpush
        rw [hlen]
        exact hpush
    | some v =>
      refine ⟨_, setFixedColumn_eq hcolumn hfixed v, hdone ?_ ?_⟩
      · rw [hlen]
        refine Front.setBit (hfront.congr fun a ha => ?_) v
        exact RawMemory.write_of_lt (by simp only [recordIn]; omega)
      · have hpush := himage.pushFixed (c := cellOf t (some v)) hnext hfixed (fits_cellOf hvalue)
        rw [hlen]
        exact hpush.congr_of_ge fun a ha => RawMemory.setBit_of_ne (hset a ha)
  | false =>
    have hcount : (recordIn m id mem).meta'.m_varColumnCount = varCount m.types := hbuilt.varCount
    have hroom : varCount ts₁ ≠ (recordIn m id mem).meta'.m_varColumnCount := by
      rw [hcount]
      exact Nat.ne_of_lt (hnext.roomVar hfixed)
    cases value with
    | none =>
      have hcleared : im.At (mem.clearBit 46 row.length) (columnsAt m) (fixedSize m.types)
          (varCount m.types) := himage.congr_of_ge fun a ha => RawMemory.clearBit_of_ne (hset a ha)
      have hlast := hcleared.last
      rw [← hbuilt.varCount, ← hlen] at hlast
      refine ⟨_, setVarColumnNull_eq hcolumn hfixed hlast, hdone ?_ ?_⟩
      · rw [hlen]
        exact hfront.clearBit.congr fun a ha => RawMemory.write_of_lt (by simp only [recordIn]; omega)
      · rw [hlen, hbuilt.varCount]
        exact hcleared.pushNull (c := cellOf t none) hnext hfixed (bytes_null_var hfixed) rfl (by omega)
    | some v =>
      have hlast := himage.last
      have hbehind := himage.last_write (v := v) (Nat.le_add_right _ im.data.length)
      have hlen' : dataSize [cellOf t (some v)] = v.length := by simp [dataSize, cellOf, hfixed]
      rw [hlen'] at hfits
      rw [← hbuilt.varCount] at hlast hbehind hfits
      refine ⟨_, setVarColumn_eq hcolumn hfixed hroom v hlast hbehind, hdone ?_ ?_⟩
      · rw [hlen]
        refine Front.setBit (hfront.congr fun a ha => ?_) v
        simp only [recordIn, setOffset, RawMemory.writeWord]
        rw [RawMemory.write_of_lt (by omega), RawMemory.write_of_lt (by omega),
          RawMemory.write_of_lt (by omega)]
      · rw [hbuilt.varCount] at hfits ⊢
        have hpush := himage.pushVar (c := cellOf t (some v)) hnext hfixed rfl
          (by simpa [cellOf, Nat.add_assoc] using hfits)
        rw [hlen, hcount]
        exact hpush.congr_of_ge fun a ha => RawMemory.setBit_of_ne (hset a ha)

/-! ## The record -/

theorem setColumns_spec (hbuilt : Built m) (hsize : fixedSize m.types < 2 ^ 16)
    (hsplit : m.types = ts₁ ++ ts₂) (hrow₁ : RowFits ts₁ row₁) (hrow₂ : RowFits ts₂ row₂)
    (hfits : imageEnd m.types (cells m.types (row₁ ++ row₂)) < 2 ^ 32)
    (h : NewImage m type row₁ mem) :
    ∃ mem', setColumns (recordIn m id mem) row₁.length row₂ = .ok (recordIn m id mem') ∧
      NewImage m type (row₁ ++ row₂) mem' := by
  induction hrow₂ generalizing ts₁ row₁ mem with
  | nil => exact ⟨mem, rfl, by rwa [List.append_nil]⟩
  | @cons t value ts₂ row₂ hvalue _ ih =>
    have hcells : cells m.types (row₁ ++ value :: row₂) =
        (cells ts₁ row₁ ++ [cellOf t value]) ++ cells ts₂ row₂ := by
      rw [hsplit, cells_append hrow₁.length_eq]
      simp [cells]
    have hsmall : imageEnd m.types (cells ts₁ row₁ ++ [cellOf t value]) < 2 ^ 32 := by
      rw [hcells, imageEnd, dataSize_append] at hfits
      rw [imageEnd]
      omega
    obtain ⟨mem₁, hset, hnew⟩ := setColumn_spec hbuilt hsize hsplit hrow₁ hvalue hsmall h
    have hrow₁' : RowFits (ts₁ ++ [t]) (row₁ ++ [value]) :=
      List.rel_append hrow₁ (.cons hvalue .nil)
    have hsplit' : m.types = (ts₁ ++ [t]) ++ ts₂ := by simp [hsplit]
    obtain ⟨mem₂, hsets, hnew₂⟩ := ih hsplit' hrow₁' (by simpa using hfits) hnew
    refine ⟨mem₂, ?_, by simpa using hnew₂⟩
    rw [setColumns, hset]
    rw [List.length_append, List.length_singleton] at hsets
    exact hsets

theorem finishedSet_spec (hbuilt : Built m) (hrow : RowFits m.types row) (h : NewImage m type row mem) :
    ∃ mem', (recordIn m id mem).finishedSet = .ok (recordIn m id mem') ∧
      NewImage m type row mem' ∧ mem'.readWord 4 0 = recordEnd m row % 2 ^ 32 := by
  have hlast := h.image.last
  rw [(length_ofCells (fits_cells hrow)).2.2, ← hbuilt.varCount] at hlast
  refine ⟨mem.writeWord 4 0 (recordEnd m row), ?_, ⟨⟨?_, ?_, ?_⟩, ?_⟩, RawMemory.readWord_writeWord⟩
  · show Except.ok { recordIn m id mem with mem := mem.writeWord 4 0 (columnsAt m +
      offsetAt mem (columnsAt m + fixedSize m.types) m.m_varColumnCount) } = _
    rw [hlast, recordEnd, imageEnd, hbuilt.varCount]
    rfl
  · rw [RawMemory.readWord_writeWord_of_disjoint (by omega), h.front.headSize]
  · rw [RawMemory.readWord_writeWord_of_disjoint (by omega), h.front.type]
  · intro j hj
    rw [← h.front.bits j hj]
    exact RawMemory.testBit_congr (RawMemory.write_of_ge (by simp; omega))
  · refine h.image.congr_of_ge fun a ha => RawMemory.write_of_ge ?_
    unfold columnsAt at ha
    simp
    omega

theorem NewImage.congr (h : NewImage m type row mem) (hrow : RowFits m.types row)
    (hsame : ∀ a < recordEnd m row, mem' a = mem a) : NewImage m type row mem' := by
  have hlengths := length_ofCells (T := fixedSize m.types) (V := varCount m.types) (fits_cells hrow)
  rw [types_cells hrow.length_eq] at hlengths
  rw [recordEnd, imageEnd] at hsame
  refine ⟨h.front.congr fun a ha => hsame a (by omega), h.image.congr (by omega) (by omega) ?_⟩
  intro a _ ha
  exact hsame a (by omega)

private theorem load_spec (hbuilt : Built m) (hsize : fixedSize m.types < 2 ^ 16)
    (htype : type = .R_INSERT ∨ type = .R_DELETE) (h : Front m type row mem) :
    DMLRecord.load mem m = .ok (recordIn m (mem.readWord 8 38) mem) := by
  have hother : ¬(type.code = RecordType.R_UPDATE.code ∨ type.code = RecordType.R_REPLACE.code) := by
    obtain rfl | rfl := htype <;> decide
  unfold DMLRecord.load
  rw [h.headSize, hbuilt.total, Nat.mod_eq_of_lt hsize, Exec.ok_bind]
  rw [h.type, if_neg hother]
  rfl

/-! ## Reading -/

variable {nb b T V : Nat} {c : Cell} {cs₁ cs₂ : List Cell}

private theorem column_null (h : r.mem.testBit nb ts₁.length = false) (b p : Nat) :
    r._column ts₁.length nb b p = .ok none := by
  rw [_column, h]
  rfl

theorem column_spec (hcolumn : ColumnAt r ts₁ c.type) (htypes : cs₁.map Cell.type = ts₁)
    (hfits : ∀ d ∈ cs₁ ++ c :: cs₂, d.Fits) (hstart : c.start = none)
    (himage : (ofCells T V (cs₁ ++ c :: cs₂)).At r.mem b T V)
    (hbit : r.mem.testBit nb ts₁.length = true) :
    ∃ p, r._column ts₁.length nb b (b + T) = .ok (some p) ∧
      r.mem.read p c.bytes.length = c.bytes := by
  have hfits₁ : ∀ d ∈ cs₁, d.Fits := fun d hd => hfits d (List.mem_append_left _ hd)
  unfold _column
  rw [hbit, hcolumn.type]
  cases hfixed : c.type.info.fixed with
  | true =>
    have hread := himage.read_fixed hfits₁ hfixed
    rw [htypes] at hread
    refine ⟨b + fixedSize ts₁, ?_, hread⟩
    simp [hfixed, (hcolumn.fixed hfixed).2.1]
  | false =>
    obtain ⟨hoffset, hread⟩ := himage.read_var hfits₁ hfixed
    rw [htypes, hstart] at hoffset
    refine ⟨b + (T + 4 * (V + 1) + dataSize cs₁), ?_, ?_⟩
    · simp [hfixed, hcolumn.var hfixed, hoffset]
    · rw [← Nat.add_assoc, ← Nat.add_assoc]
      exact hread

private theorem varColumnSize_null (h : r.mem.testBit nb ts₁.length = false) (p : Nat) :
    r._varColumnSize ts₁.length nb p = .ok 0 := by
  rw [_varColumnSize, h]
  rfl

/-- The size that is read of a column: from the start of the column in the new image to the start of
    the next one in the image. -/
theorem varColumnSize_spec (hcolumn : ColumnAt r ts₁ c.type) (htypes : cs₁.map Cell.type = ts₁)
    (hfits : ∀ d ∈ cs₁ ++ c :: cs₂, d.Fits) (hvar : c.type.info.fixed = false)
    (hV : V = varCount ((cs₁ ++ c :: cs₂).map Cell.type))
    (himage : (ofCells T V (cs₁ ++ c :: cs₂)).At r.mem b T V)
    (hbit : r.mem.testBit nb ts₁.length = true) :
    r._varColumnSize ts₁.length nb (b + T) = .ok
      (sub32 (nextStart (T + 4 * (V + 1) + dataSize cs₁ + c.bytes.length) cs₂)
        (offsetAt r.mem r.varLengthColumns (varCount ts₁))) := by
  have hnext := himage.read_next hfits hvar hV
  rw [htypes] at hnext
  rw [_varColumnSize, hbit, hcolumn.var hvar, ← hnext]
  rfl

theorem sub32_add (n len : Nat) (h : n + len < 2 ^ 32) : sub32 (n + len) n = len := by
  rw [sub32, Nat.mod_eq_of_lt (show n < 2 ^ 32 by omega), show n + len + 2 ^ 32 - n = len + 2 ^ 32 by omega,
    Nat.add_mod_right, Nat.mod_eq_of_lt (by omega)]

theorem nextStart_of_none {n : Nat} {cs : List Cell} (h : ∀ d ∈ cs, d.start = none) :
    nextStart n cs = n := by
  unfold nextStart
  cases hfind : cs.find? fun c => !c.type.info.fixed with
  | none => rfl
  | some d =>
    show d.start.getD n = n
    rw [h d (List.mem_of_find?_eq_some hfind)]
    rfl

theorem start_cells (ts : List Meta.ColumnType) (row : List (Option (List UInt8))) :
    ∀ d ∈ cells ts row, d.start = none := by
  induction ts generalizing row with
  | nil => simp [cells]
  | cons t ts ih =>
    cases row with
    | nil => simp [cells]
    | cons value row =>
      intro d hd
      obtain rfl | hd := List.mem_cons.mp hd
      · rfl
      · exact ih row d hd

/-- Every column of a new image is shown as it was set. -/
theorem NewImage.shows (h : NewImage m type row mem) (hbuilt : Built m)
    (hsize : fixedSize m.types < 2 ^ 16) (hrow : RowFits m.types row)
    (hfits : imageEnd m.types (cells m.types row) < 2 ^ 32) (hmem : r.mem = mem) (hmeta : r.meta' = m)
    (hbitmap : r.nullBitmap = 46) (hcolumns : r.columns = columnsAt m)
    (harray : r.varLengthColumns = columnsAt m + fixedSize m.types) {i : Nat}
    (ht : m.types[i]? = some t) (hvalue : row[i]? = some value) : Shows r i t value := by
  obtain ⟨ts₁, ts₂, htypes, rfl⟩ := List.exists_append_cons_of_getElem? ht
  obtain ⟨row₁, row₂, hvalues, hlen⟩ := List.exists_append_cons_of_getElem? hvalue
  have hcells : cells m.types row = cells ts₁ row₁ ++ cellOf t value :: cells ts₂ row₂ := by
    rw [htypes, hvalues, cells_append hlen.symm]
    rfl
  have htypes₁ : (cells ts₁ row₁).map Cell.type = ts₁ := types_cells hlen.symm
  have hcolumn : ColumnAt r ts₁ (cellOf t value).type :=
    columnAt r (by rwa [hmeta]) (by rwa [hmeta]) (by rwa [hmeta])
  have hV : varCount m.types = varCount ((cells ts₁ row₁ ++ cellOf t value :: cells ts₂ row₂).map
      Cell.type) := by rw [← hcells, types_cells hrow.length_eq]
  have hallfits := fits_cells hrow
  have himage := h.image
  have hbit : r.mem.testBit 46 ts₁.length = value.isSome := by
    rw [hmem, h.front.bits _ (lt_columnsCount htypes), hvalue]
    rfl
  rw [hcells] at hallfits himage hfits
  rw [← hmem] at himage
  constructor
  · rw [columnIsNull, hbitmap, hbit]
    cases value <;> rfl
  · rintro rfl
    rw [column, hbitmap]
    exact column_null hbit _ _
  · rintro v rfl
    rw [column, hbitmap, hcolumns, harray]
    exact column_spec hcolumn htypes₁ hallfits rfl himage hbit
  · intro hvar
    rw [varColumnSize, hbitmap]
    cases value with
    | none => exact varColumnSize_null hbit _
    | some v =>
      have hstart := (himage.read_var (fun d hd => hallfits d (List.mem_append_left _ hd)) hvar).1
      rw [htypes₁] at hstart
      rw [harray, varColumnSize_spec hcolumn htypes₁ hallfits hvar hV himage hbit, harray, hstart,
        nextStart_of_none (start_cells ts₂ row₂)]
      rw [imageEnd, dataSize_append, dataSize_cons hvar] at hfits
      refine congrArg Except.ok (sub32_add _ _ ?_)
      omega

theorem writeRow_spec (hbuilt : Built m) (hsize : fixedSize m.types < 2 ^ 16)
    (htype : type = .R_INSERT ∨ type = .R_DELETE) (hrow : RowFits m.types row)
    (hfits : imageEnd m.types (cells m.types row) < 2 ^ 32) (mem : RawMemory) :
    ∃ w r, writeRow mem m type row = .ok w ∧ DMLRecord.load w.mem m = .ok r ∧
      (∀ i t value, m.types[i]? = some t → row[i]? = some value → Shows r i t value) ∧
      r.size = recordEnd m row % 2 ^ 32 := by
  have hempty : imageEnd m.types [] < 2 ^ 32 := by
    simp only [imageEnd, dataSize, List.map_nil, List.sum_nil] at hfits ⊢
    omega
  obtain ⟨mem₁, hinit, hnew₁⟩ := initRecord_spec hbuilt hsize type mem hempty
  have hnil : m.types = [] ++ m.types := rfl
  obtain ⟨mem₂, hset, hnew₂⟩ := setColumns_spec hbuilt hsize hnil .nil hrow hfits hnew₁
  obtain ⟨mem₃, hfinish, hnew₃, hend⟩ := finishedSet_spec hbuilt hrow hnew₂
  have hset : setColumns (recordIn m m.m_id mem₁) 0 row = .ok (recordIn m m.m_id mem₂) := hset
  refine ⟨recordIn m m.m_id mem₃, recordIn m (mem₃.readWord 8 38) mem₃, ?_,
    load_spec hbuilt hsize htype hnew₃.front, ?_, hend⟩
  · rw [writeRow, hinit, Exec.ok_bind, hset, Exec.ok_bind, hfinish]
  · intro i t value ht hvalue
    exact hnew₃.shows hbuilt hsize hrow hfits rfl rfl rfl rfl rfl ht hvalue

/-! ## Tables that are too wide -/

/-- The record that `initRecord` makes for a table with more than `2 ^ 16` bytes of fixed columns. -/
def recordWide (m : Meta.TableMeta) (mem : RawMemory) : DMLRecord :=
  { recordIn m m.m_id mem with varLengthColumns := columnsAt m + fixedSize m.types % 2 ^ 16 }

/-- The word at `p` is as it was, or bytes of it were cleared. -/
def Cleared (p : Nat) (mem₀ mem : RawMemory) : Prop :=
  ∀ k < 4, mem (p + k) = mem₀ (p + k) ∨ mem (p + k) = 0

theorem Cleared.step {p : Nat} {mem₀ : RawMemory} (h : Cleared p mem₀ mem)
    (hstep : ∀ a, p ≤ a → a < p + 4 → mem' a = mem a ∨ mem' a = 0) : Cleared p mem₀ mem' := by
  intro k hk
  obtain hsame | hzero := hstep (p + k) (by omega) (by omega)
  · rw [hsame]
    exact h k hk
  · exact .inr hzero

/-- Where the end of the image is stored. -/
def endAt (m : Meta.TableMeta) : Nat :=
  columnsAt m + fixedSize m.types % 2 ^ 16 + 4 * varCount m.types

theorem setColumn_null_cleared (hbuilt : Built m) (hsplit : m.types = ts₁ ++ t :: ts₂)
    {mem₀ : RawMemory} (h : Cleared (endAt m) mem₀ mem)
    (hset : (recordWide m mem).setColumn ts₁.length none = .ok r) :
    ∃ mem', r = recordWide m mem' ∧ Cleared (endAt m) mem₀ mem' := by
  have hbit := div_lt_bitmapSize (lt_columnsCount hsplit)
  have hcleared : Cleared (endAt m) mem₀ (mem.clearBit 46 ts₁.length) := h.step fun a ha _ =>
    .inl (RawMemory.clearBit_of_ne (by unfold endAt columnsAt at ha; omega))
  rw [setColumn, columnType_of_split (recordWide m mem) hsplit, Exec.ok_bind] at hset
  cases hfixed : t.info.fixed with
  | true =>
    rw [hfixed] at hset
    obtain ⟨offset, _, hset⟩ := Exec.of_bind hset
    obtain ⟨type', _, hset⟩ := Exec.of_bind hset
    cases hset
    exact ⟨_, rfl, hcleared.step fun a _ _ => RawMemory.write_zeros _ _ _ a⟩
  | false =>
    have hreal : (recordWide m mem).realIndex ts₁.length = .ok (varCount ts₁) := hbuilt.var hsplit hfixed
    have hroom : varCount ts₁ < varCount m.types := by
      rw [hsplit, varCount_append, varCount_cons hfixed]
      omega
    rw [hfixed] at hset
    obtain ⟨real, hreal', hset⟩ := Exec.of_bind hset
    cases hreal.symm.trans hreal'
    cases hset
    refine ⟨_, rfl, hcleared.step fun a ha _ => .inl (RawMemory.write_of_ge ?_)⟩
    rw [LE.length_bytes]
    unfold endAt at ha
    simp only [recordWide]
    omega

theorem setColumns_null_cleared (hbuilt : Built m) (hsplit : m.types = ts₁ ++ ts₂)
    {mem₀ : RawMemory} (h : Cleared (endAt m) mem₀ mem)
    (hset : setColumns (recordWide m mem) ts₁.length (ts₂.map fun _ => none) = .ok r) :
    ∃ mem', r = recordWide m mem' ∧ Cleared (endAt m) mem₀ mem' := by
  induction ts₂ generalizing ts₁ mem with
  | nil =>
    cases hset
    exact ⟨mem, rfl, h⟩
  | cons t ts₂ ih =>
    obtain ⟨r₁, hset₁, hset⟩ := Exec.of_bind hset
    obtain ⟨mem₁, rfl, h₁⟩ := setColumn_null_cleared hbuilt hsplit h hset₁
    have hsplit' : m.types = (ts₁ ++ [t]) ++ ts₂ := by simp [hsplit]
    refine ih hsplit' h₁ ?_
    rw [List.length_append, List.length_singleton]
    exact hset

theorem initRecord_wide (hbuilt : Built m) (mem : RawMemory) (type : RecordType) :
    ∃ mem₀, initRecord mem m type = .ok (recordWide m mem₀) ∧
      mem₀.readWord 4 (endAt m) ≤ fixedSize m.types % 2 ^ 16 + 4 * (varCount m.types + 1) := by
  obtain ⟨hhead, -⟩ := init_spec mem type
  unfold initRecord
  dsimp only
  rw [hhead, hbuilt.total, Exec.ok_bind, hbuilt.varCount]
  refine ⟨_, rfl, ?_⟩
  have hword {q : RawMemory} {n : Nat} : (q.writeWord 4 (endAt m) n).readWord 4 (endAt m) ≤ n := by
    rw [RawMemory.readWord_writeWord]
    exact Nat.mod_le ..
  refine hword.trans ?_
  omega

theorem mem_load (h : DMLRecord.load mem m = .ok r) : r.mem = mem := by
  obtain ⟨fixedSize, _, h⟩ := Exec.of_bind h
  dsimp only at h
  split at h
  · cases h
    rfl
  · cases h
    rfl

theorem not_roundTrips_of_wide (hbuilt : Built m) (hwide : 2 ^ 16 ≤ fixedSize m.types)
    (mem : RawMemory) (type : RecordType) :
    ¬RoundTrips mem m type (m.types.map fun _ => none) := by
  rintro ⟨w, r, hwrite, hload, -, hend⟩
  obtain ⟨mem₀, hinit, hword⟩ := initRecord_wide hbuilt mem type
  obtain ⟨r₁, hinit', hwrite⟩ := Exec.of_bind hwrite
  cases hinit.symm.trans hinit'
  obtain ⟨r₂, hset, hfinish⟩ := Exec.of_bind hwrite
  have hnil : m.types = [] ++ m.types := rfl
  obtain ⟨mem₂, rfl, hcleared⟩ := setColumns_null_cleared hbuilt hnil (fun _ _ => .inl rfl) hset
  have hle := (RawMemory.readWord_le hcleared).trans hword
  cases hfinish
  rw [DMLRecord.size, mem_load hload] at hend
  have hsize {q : RawMemory} {n : Nat} : (q.writeWord 4 0 n).readWord 4 0 ≤ n := by
    rw [RawMemory.readWord_writeWord]
    exact Nat.mod_le ..
  have hoffset : offsetAt mem₂ (columnsAt m + fixedSize m.types % 2 ^ 16) m.m_varColumnCount ≤
      fixedSize m.types % 2 ^ 16 + 4 * (varCount m.types + 1) := by
    rw [hbuilt.varCount]
    exact hle
  have hreached := hend ▸ hsize
  simp only [recordWide, recordIn, recordEnd, imageEnd] at hreached
  omega

theorem types_buildColumnOffsetList (t : Meta.TableMeta) :
    t.buildColumnOffsetList.types = t.types := rfl

theorem fixedSize_le (ts : List Meta.ColumnType) : fixedSize ts ≤ 8 * ts.length := by
  induction ts with
  | nil => exact Nat.le_refl _
  | cons t ts ih =>
    have ht : t.info.columnTypeSize ≤ 8 := by cases t <;> decide
    simp only [fixedSize, List.map_cons, List.sum_cons, List.length_cons] at ih ⊢
    split <;> omega

theorem rowFits_nulls (ts : List Meta.ColumnType) : RowFits ts (ts.map fun _ => none) := by
  induction ts with
  | nil => exact .nil
  | cons t ts ih => exact .cons (fun v hv => nomatch hv) ih

theorem dataSize_nulls (ts : List Meta.ColumnType) :
    dataSize (cells ts (ts.map fun _ => none)) = 0 := by
  induction ts with
  | nil => rfl
  | cons t ts ih =>
    have hcons : cells (t :: ts) ((t :: ts).map fun _ => none) =
        cellOf t none :: cells ts (ts.map fun _ => none) := rfl
    rw [hcons]
    cases hfixed : t.info.fixed with
    | true => simpa [dataSize, cellOf, hfixed] using ih
    | false =>
      rw [dataSize_cons hfixed, bytes_null_var hfixed, ih]
      rfl

theorem recordEnd_nulls_lt (t : Meta.TableMeta) (hcount : t.columnsCount < 2 ^ 16) :
    recordEnd t (t.types.map fun _ => none) < 2 ^ 32 := by
  have hlen : t.types.length = t.columnsCount := List.length_map ..
  have hsize := fixedSize_le t.types
  have hvar : varCount t.types ≤ t.types.length := List.countP_le_length
  have hbitmap : BITMAP_SIZE t.columnsCount ≤ t.columnsCount + 1 := by
    have hshift : t.columnsCount >>> 3 = t.columnsCount / 8 := Nat.shiftRight_eq_div_pow _ 3
    rw [BITMAP_SIZE, hshift]
    split <;> omega
  rw [recordEnd, columnsAt, imageEnd, dataSize_nulls]
  omega

/-- With less than `2 ^ 16` bytes of fixed columns every row comes back whose record ends below
    `2 ^ 32`, and with more not every row does. -/
theorem roundTrips_iff (t : Meta.TableMeta) (hcount : t.columnsCount < 2 ^ 16)
    (htype : type = .R_INSERT ∨ type = .R_DELETE) (mem : RawMemory) :
    (fixedSize t.types < 2 ^ 16 → ∀ row, RowFits t.types row →
      imageEnd t.types (cells t.types row) < 2 ^ 32 →
        (RoundTrips mem t.buildColumnOffsetList type row ↔ recordEnd t row < 2 ^ 32)) ∧
    (2 ^ 16 ≤ fixedSize t.types → ∃ row, RowFits t.types row ∧ recordEnd t row < 2 ^ 32 ∧
      ¬RoundTrips mem t.buildColumnOffsetList type row) := by
  have hbuilt := built_buildColumnOffsetList t
  constructor
  · intro hsize row hrow hfits
    obtain ⟨w, r, hwrite, hload, hshows, hend⟩ := writeRow_spec hbuilt hsize htype hrow hfits mem
    have hend : r.size = recordEnd t row % 2 ^ 32 := hend
    constructor
    · rintro ⟨w', r', hwrite', hload', -, hend'⟩
      cases hwrite.symm.trans hwrite'
      cases hload.symm.trans hload'
      have hend' : r.size = recordEnd t row := hend'
      omega
    · intro hlt
      refine ⟨w, r, hwrite, hload, hshows, ?_⟩
      rw [hend, Nat.mod_eq_of_lt hlt]
      rfl
  · intro hwide
    exact ⟨t.types.map fun _ => none, rowFits_nulls t.types, recordEnd_nulls_lt t hcount,
      not_roundTrips_of_wide hbuilt hwide mem type⟩

def smallTable : Meta.TableMeta :=
  { m_columns := [{ m_columnType := .T_UINT32, m_columnName := "a" },
      { m_columnType := .T_STRING, m_columnName := "b" },
      { m_columnType := .T_STRING, m_columnName := "c" }] }

theorem roundTrips_iff_smallTable :
    RoundTrips (fun _ => 0) smallTable.buildColumnOffsetList .R_INSERT
      [some [1, 2, 3, 4], none, some [65, 66]] := by
  refine ((roundTrips_iff smallTable (by decide) (.inl rfl) _).1 (by decide) _ ?_ (by decide)).mpr
    (by decide)
  exact .cons (by rintro v ⟨⟩ _; rfl) (.cons (fun v hv => nomatch hv)
    (.cons (fun v _ hfixed => nomatch hfixed) .nil))

def wideTable : Meta.TableMeta :=
  { m_columns := List.replicate 8193 { m_columnType := .T_UINT64, m_columnName := "c" } }

/-- The record of a row of nulls ends in front of its columns. -/
theorem roundTrips_wideTable :
    RowFits wideTable.types (wideTable.types.map fun _ => none) ∧
      recordEnd wideTable (wideTable.types.map fun _ => none) < 2 ^ 32 ∧
      ¬RoundTrips (fun _ => 0) wideTable.buildColumnOffsetList .R_INSERT
        (wideTable.types.map fun _ => none) := by
  have hcount : wideTable.columnsCount = 8193 := List.length_replicate
  have hsize : fixedSize wideTable.types = 65544 := by
    simp only [fixedSize, Meta.TableMeta.types, wideTable, List.map_replicate, List.sum_replicate_nat]
    rfl
  refine ⟨rowFits_nulls _, recordEnd_nulls_lt wideTable (by omega), ?_⟩
  rw [← types_buildColumnOffsetList]
  refine not_roundTrips_of_wide (built_buildColumnOffsetList wideTable) ?_ _ _
  rw [types_buildColumnOffsetList, hsize]
  decide

end DBStream.Native
