import DBStream.Spec.DMLOldValues

/-!
# Room for a record

Where the record of a row ends, and that building it changes nothing behind its end.  The last byte
of a record is written whatever is in memory, so a record stays within the memory it is given just
when its end does.
-/

namespace DBStream.Native

open Meta RowImage DMLRecord
open RawMemory (ChangedBelow)

variable {m : Meta.TableMeta} {type : RecordType} {ts₁ ts₂ : List Meta.ColumnType}
  {t : Meta.ColumnType}
  {row row₁ row₂ : List (Option (List UInt8))} {value : Option (List UInt8)}
  {olds olds₁ olds₂ : List OldColumn} {old : OldColumn} {mem mem' : RawMemory} {E id n : Nat}
  {r : DMLRecord}

/-! ## New values -/

private theorem init_below (mem : RawMemory) (type : RecordType) (hn : 46 ≤ n) :
    ChangedBelow n mem (((init mem).writeWord 1 6 type.code).writeWord 1 4 0) := by
  have h := ChangedBelow.refl mem n
  have h := h.writeWord (w := 1) (p := 4) (k := 0) (by omega)
  have h := h.writeWord (w := 1) (p := 7) (k := 1) (by omega)
  have h := h.writeWord (w := 1) (p := 5) (k := recordHeadSize) (by omega)
  have h := h.writeWord (w := 2) (p := 8) (k := 0) (by omega)
  have h := h.writeWord (w := 8) (p := 10) (k := 0) (by omega)
  have h := h.writeWord (w := 4) (p := 34) (k := 0) (by omega)
  exact (h.writeWord (by omega)).writeWord (by omega)

theorem initRecord_below (hbuilt : Built m) (hsize : fixedSize m.types < 2 ^ 16)
    (hinit : initRecord mem m type = .ok r) (hn : columnsAt m + imageEnd m.types [] ≤ n) :
    ChangedBelow n mem r.mem := by
  obtain ⟨hhead, -⟩ := init_spec mem type
  have hend : imageEnd m.types [] = fixedSize m.types + 4 * (varCount m.types + 1) := by
    simp [imageEnd, dataSize]
  unfold columnsAt at hn
  have hbelow := init_below (n := n) mem type (by omega)
  unfold initRecord at hinit
  dsimp only at hinit
  rw [hhead, hbuilt.total, Nat.mod_eq_of_lt hsize, Exec.ok_bind, hbuilt.varCount] at hinit
  cases hinit
  have hid := hbelow.writeWord (w := 8) (p := 38) (k := m.m_id) (by omega)
  have hbitmap := hid.write (p := 46) (d := List.replicate (BITMAP_SIZE m.columnsCount) 0)
    (by rw [List.length_replicate]; omega)
  refine hbitmap.writeWord ?_
  simp only [recordHeadSize]
  omega

/-- A setter of the new image writes below the end of the image. -/
theorem setColumn_below (hbuilt : Built m) (hsize : fixedSize m.types < 2 ^ 16)
    (hsplit : m.types = ts₁ ++ t :: ts₂) (hrow : RowFits ts₁ row) (hvalue : ValueFits t value)
    (h : NewImage m type row mem)
    (hset : (recordIn m id mem).setColumn row.length value = .ok r)
    (hn : columnsAt m + imageEnd m.types (cells ts₁ row ++ [cellOf t value]) ≤ n) :
    ChangedBelow n mem r.mem := by
  have hlen : ts₁.length = row.length := hrow.length_eq
  have hcolumn := columnAt (recordIn m id mem) hbuilt hsize hsplit
  have hnext := next_cells hsplit hrow
  have hbit := div_lt_bitmapSize (lt_columnsCount hsplit)
  have himage := h.image
  rw [hsplit, cells_prefix hlen, ← hsplit] at himage
  have hdata : (ofCells (fixedSize m.types) (varCount m.types) (cells ts₁ row)).data.length =
      dataSize (cells ts₁ row) := (length_ofCells (fits_cells hrow)).2.2
  have hbefore : 46 + ts₁.length / 8 < n := by
    unfold columnsAt at hn
    omega
  rw [imageEnd, dataSize_append, ← hdata] at hn
  -- only the length of the image built so far matters from here on
  generalize ofCells (fixedSize m.types) (varCount m.types) (cells ts₁ row) = im at *
  unfold setColumn at hset
  rw [← hlen, hcolumn.type, Exec.ok_bind] at hset
  have hcount : (recordIn m id mem).meta'.m_varColumnCount = varCount m.types := hbuilt.varCount
  -- each setter writes the value, its offset word and a bit of the null map, all below `n`
  cases hfixed : t.info.fixed with
  | true =>
    have hroom := hnext.roomFixed hfixed
    rw [hfixed] at hset
    cases value with
    | none =>
      cases (setFixedColumnNull_eq hcolumn hfixed).symm.trans hset
      refine ((ChangedBelow.refl mem n).clearBit hbefore).write ?_
      rw [List.length_replicate]
      simp only [recordIn]
      omega
    | some v =>
      cases (setFixedColumn_eq hcolumn hfixed v).symm.trans hset
      refine ((ChangedBelow.refl mem n).write ?_).setBit hbefore
      rw [hvalue v rfl hfixed]
      simp only [recordIn]
      omega
  | false =>
    have hroom := hnext.roomVar hfixed
    rw [hfixed] at hset
    cases value with
    | none =>
      cases (setVarColumnNull_eq hcolumn hfixed rfl).symm.trans hset
      refine ((ChangedBelow.refl mem n).clearBit hbefore).writeWord ?_
      simp only [recordIn]
      omega
    | some v =>
      have hlast := himage.last
      have hbehind := himage.last_write (v := v) (Nat.le_add_right _ im.data.length)
      have hbytes : dataSize [cellOf t (some v)] = v.length := by simp [dataSize, cellOf, hfixed]
      rw [← hbuilt.varCount] at hlast hbehind
      have hne : varCount ts₁ ≠ (recordIn m id mem).meta'.m_varColumnCount := by
        rw [hcount]
        exact Nat.ne_of_lt hroom
      cases (setVarColumn_eq hcolumn hfixed hne v hlast hbehind).symm.trans hset
      simp only [recordIn, hbuilt.varCount]
      refine ChangedBelow.setBit (ChangedBelow.writeWord (ChangedBelow.writeWord
        (ChangedBelow.write (ChangedBelow.refl mem n) ?_) ?_) ?_) hbefore
      · omega
      · omega
      · omega

theorem setColumns_below (hbuilt : Built m) (hsize : fixedSize m.types < 2 ^ 16)
    (hsplit : m.types = ts₁ ++ ts₂) (hrow₁ : RowFits ts₁ row₁) (hrow₂ : RowFits ts₂ row₂)
    (hfits : imageEnd m.types (cells m.types (row₁ ++ row₂)) < 2 ^ 32)
    (h : NewImage m type row₁ mem)
    (hset : setColumns (recordIn m id mem) row₁.length row₂ = .ok r)
    (hn : columnsAt m + imageEnd m.types (cells m.types (row₁ ++ row₂)) ≤ n) :
    ChangedBelow n mem r.mem := by
  induction hrow₂ generalizing ts₁ row₁ mem with
  | nil =>
    cases hset
    exact .refl mem n
  | @cons t value ts₂ row₂ hvalue _ ih =>
    have hcells : cells m.types (row₁ ++ value :: row₂) =
        (cells ts₁ row₁ ++ [cellOf t value]) ++ cells ts₂ row₂ := by
      rw [hsplit, cells_append hrow₁.length_eq]
      simp [cells]
    have hle : imageEnd m.types (cells ts₁ row₁ ++ [cellOf t value]) ≤
        imageEnd m.types (cells m.types (row₁ ++ value :: row₂)) := by
      rw [hcells, imageEnd, imageEnd, dataSize_append _ (cells ts₂ row₂)]
      omega
    obtain ⟨mem₁, hset₁, hnew⟩ := setColumn_spec hbuilt hsize hsplit hrow₁ hvalue (by omega) h
    have hfirst := setColumn_below (n := n) hbuilt hsize hsplit hrow₁ hvalue h hset₁ (by omega)
    have hrow₁' : RowFits (ts₁ ++ [t]) (row₁ ++ [value]) :=
      List.rel_append hrow₁ (.cons hvalue .nil)
    have hsplit' : m.types = (ts₁ ++ [t]) ++ ts₂ := by simp [hsplit]
    rw [setColumns, hset₁, Exec.ok_bind] at hset
    refine hfirst.trans (ih hsplit' hrow₁' (by simpa using hfits) hnew ?_ (by simpa using hn))
    rw [List.length_append, List.length_singleton]
    exact hset

theorem finishedSet_below {r' : DMLRecord} (hfinish : r.finishedSet = .ok r') (hn : 4 ≤ n) :
    ChangedBelow n r.mem r'.mem := by
  unfold finishedSet at hfinish
  split at hfinish
  · cases hfinish
    exact (ChangedBelow.refl r.mem n).writeWord (w := 4) (p := 0) (by omega)
  · obtain ⟨array, -, hfinish⟩ := Exec.of_bind hfinish
    cases hfinish
    exact (ChangedBelow.refl r.mem n).writeWord (w := 4) (p := 0) (by omega)

theorem writeRow_below (hbuilt : Built m) (hsize : fixedSize m.types < 2 ^ 16)
    (hrow : RowFits m.types row) (hfits : imageEnd m.types (cells m.types row) < 2 ^ 32)
    (mem : RawMemory) :
    ∃ mem', writeRow mem m type row = .ok (recordIn m m.m_id mem') ∧ NewImage m type row mem' ∧
      ChangedBelow (recordEnd m row) mem mem' := by
  have hempty : imageEnd m.types [] ≤ imageEnd m.types (cells m.types row) := by
    simp only [imageEnd, dataSize, List.map_nil, List.sum_nil]
    omega
  have hnil : m.types = [] ++ m.types := rfl
  obtain ⟨mem₁, hinit, hnew₁⟩ := initRecord_spec hbuilt hsize type mem (by omega)
  obtain ⟨mem₂, hset, hnew₂⟩ := setColumns_spec hbuilt hsize hnil .nil hrow hfits hnew₁
  obtain ⟨mem₃, hfinish, hnew₃, -⟩ := finishedSet_spec hbuilt hrow hnew₂
  have hend : recordEnd m row = columnsAt m + imageEnd m.types (cells m.types row) := rfl
  have h₁ := initRecord_below (n := recordEnd m row) hbuilt hsize hinit (by omega)
  have h₂ := setColumns_below (n := recordEnd m row) hbuilt hsize hnil .nil hrow hfits hnew₁ hset
    (by rw [List.nil_append, hend])
  have h₃ := finishedSet_below (n := recordEnd m row) hfinish (by rw [hend, columnsAt]; omega)
  have hset : setColumns (recordIn m m.m_id mem₁) 0 row = .ok (recordIn m m.m_id mem₂) := hset
  refine ⟨mem₃, ?_, hnew₃, (h₁.trans h₂).trans h₃⟩
  rw [writeRow, hinit, Exec.ok_bind, hset, Exec.ok_bind, hfinish]

/-! ## Old values -/

theorem startSetUpdateOldValue_below (hbuilt : Built m) (hsize : fixedSize m.types < 2 ^ 16)
    (hrow : RowFits m.types row) (hE : E = imageEnd m.types (cells m.types row))
    (h : NewImage m type row mem)
    (hstart : (recordIn m id mem).startSetUpdateOldValue = .ok r)
    (hn : oldAt m E + imageEnd m.types [] ≤ n) : ChangedBelow n mem r.mem := by
  have hlast : offsetAt mem (columnsAt m + fixedSize m.types) m.m_varColumnCount = E := by
    rw [hbuilt.varCount, h.image.last, (length_ofCells (fits_cells hrow)).2.2, hE, imageEnd]
  have htotal : tableAt (recordIn m id mem).meta'.m_fixedColumnOffsetsInRecord
      (recordIn m id mem).meta'.m_fixedColumnCount = .ok (fixedSize m.types) := by
    rw [← Nat.mod_eq_of_lt hsize]
    exact hbuilt.total
  have hend : imageEnd m.types [] = fixedSize m.types + 4 * (varCount m.types + 1) := by
    simp [imageEnd, dataSize]
  rw [startSetUpdateOldValue, htotal] at hstart
  cases hstart
  have hold : oldAt m E = updatedAt m E + BITMAP_SIZE m.columnsCount * 2 := by
    unfold oldAt
    omega
  have hcleared := (ChangedBelow.refl mem n).write (p := updatedAt m E)
    (d := List.replicate (BITMAP_SIZE m.columnsCount * 2) 0)
    (by rw [List.length_replicate]; omega)
  subst hlast
  refine hcleared.writeWord ?_
  simp only [recordIn, hbuilt.varCount] at hn ⊢
  unfold oldAt updatedAt at hn
  omega

/-- A setter of the old image writes below the end of that image. -/
theorem setOldColumn_below (hnext : OldNext m row E ts₁ t olds)
    (hold : ValueFits t (old.valueOf none)) (h : OldImage m type row E olds mem)
    (hset : (recordOld m id E mem).setOldColumn olds.length old = .ok r)
    (hn : oldAt m E + imageEnd m.types (oldCells E ts₁ olds ++ [oldCellOf E t old]) ≤ n) :
    ChangedBelow n mem r.mem := by
  obtain ⟨ts₂, hsplit⟩ := hnext.split
  have hlen : ts₁.length = olds.length := hnext.oldsFit.length_eq
  have hcolumn : ColumnAt (recordOld m id E mem) ts₁ t :=
    columnAt (recordOld m id E mem) hnext.built hnext.size hsplit
  have hcount : m.m_varColumnCount = varCount m.types := hnext.built.varCount
  have hbit := div_lt_bitmapSize (lt_columnsCount hsplit)
  have hupdated : updatedAt m E + ts₁.length / 8 < n := by
    unfold oldAt at hn
    omega
  have hnotNull : updatedAt m E + BITMAP_SIZE m.columnsCount + ts₁.length / 8 < n := by
    unfold oldAt at hn
    omega
  have hbefore := ChangedBelow.refl mem n
  obtain ⟨hplace, himage, hdata⟩ := h.before hnext
  rw [imageEnd, dataSize_append, ← hdata] at hn
  generalize ofCells (fixedSize m.types) (varCount m.types) (oldCells E ts₁ olds) = im at *
  unfold setOldColumn at hset
  rw [← hlen, hcolumn.type, Exec.ok_bind] at hset
  -- the old image has two maps, of the updated columns and of the nulls, both before its data
  cases hfixed : t.info.fixed with
  | true =>
    have hroom := hplace.roomFixed hfixed
    rw [hfixed] at hset
    cases old with
    | notUpdate =>
      cases (setColumnNotUpdate_fixed hcolumn hfixed).symm.trans hset
      exact (hbefore.clearBit hupdated).write (by rw [List.length_replicate]; omega)
    | null =>
      cases (setUpdatedFixedColumnNull_eq hcolumn hfixed).symm.trans hset
      exact (hbefore.clearBit hnotNull).write (by rw [List.length_replicate]; omega)
    | value v =>
      cases (setFixedUpdatedColumn_eq hcolumn hfixed v).symm.trans hset
      have hv : v.length = t.info.columnTypeSize := hold v rfl hfixed
      exact ((hbefore.write (by omega)).setBit hnotNull).setBit hupdated
  | false =>
    have hroom := hplace.roomVar hfixed
    rw [hfixed] at hset
    cases old with
    | notUpdate =>
      cases (setColumnNotUpdate_var hcolumn hfixed rfl).symm.trans hset
      exact (hbefore.clearBit hupdated).writeWord (by omega)
    | null =>
      cases (setUpdatedVarColumnNull_eq hcolumn hfixed rfl).symm.trans hset
      exact (hbefore.clearBit hnotNull).writeWord (by omega)
    | value v =>
      have hlast := himage.last
      have hbehind := himage.last_write (v := v) (Nat.le_add_right _ im.data.length)
      have hbytes : dataSize [oldCellOf E t (.value v)] = v.length := by
        simp [dataSize, oldCellOf, cellOf, hfixed]
      rw [← hcount] at hlast hbehind
      have hne : varCount ts₁ ≠ m.m_varColumnCount := by
        rw [hcount]
        exact Nat.ne_of_lt hroom
      cases (setVardUpdatedColumn_eq hcolumn hfixed hne v hlast hbehind).symm.trans hset
      rw [hcount]
      have hwrite := hbefore.write (p := oldAt m E + (fixedSize m.types +
        4 * (varCount m.types + 1) + im.data.length)) (d := v) (by omega)
      exact (((hwrite.writeWord (by omega)).writeWord (by omega)).setBit hnotNull).setBit hupdated

theorem setOldColumns_below (hbuilt : Built m) (hsize : fixedSize m.types < 2 ^ 16)
    (hrow : RowFits m.types row) (hE : E = imageEnd m.types (cells m.types row))
    (hEfits : E < 2 ^ 32)
    (hsplit : m.types = ts₁ ++ ts₂) (holds₁ : OldFits ts₁ olds₁) (holds₂ : OldFits ts₂ olds₂)
    (hfits : imageEnd m.types (oldCells E m.types (olds₁ ++ olds₂)) < 2 ^ 32)
    (h : OldImage m type row E olds₁ mem)
    (hset : setOldColumns (recordOld m id E mem) olds₁.length olds₂ = .ok r)
    (hn : oldAt m E + imageEnd m.types (oldCells E m.types (olds₁ ++ olds₂)) ≤ n) :
    ChangedBelow n mem r.mem := by
  induction holds₂ generalizing ts₁ olds₁ mem with
  | nil =>
    cases hset
    exact .refl mem n
  | @cons t old ts₂ olds₂ hold _ ih =>
    have hcells : oldCells E m.types (olds₁ ++ old :: olds₂) =
        (oldCells E ts₁ olds₁ ++ [oldCellOf E t old]) ++ oldCells E ts₂ olds₂ := by
      rw [hsplit, oldCells_append holds₁.length_eq]
      simp [oldCells]
    have hle : imageEnd m.types (oldCells E ts₁ olds₁ ++ [oldCellOf E t old]) ≤
        imageEnd m.types (oldCells E m.types (olds₁ ++ old :: olds₂)) := by
      rw [hcells, imageEnd, imageEnd, dataSize_append _ (oldCells E ts₂ olds₂)]
      omega
    have hnext : OldNext m row E ts₁ t olds₁ :=
      ⟨hbuilt, hsize, hrow, hE, hEfits, ⟨ts₂, hsplit⟩, holds₁⟩
    obtain ⟨mem₁, hset₁, hold₁⟩ := setOldColumn_spec hnext hold (by omega) h
    have hfirst := setOldColumn_below (n := n) hnext hold h hset₁ (by omega)
    have holds₁' : OldFits (ts₁ ++ [t]) (olds₁ ++ [old]) := List.rel_append holds₁ (.cons hold .nil)
    have hsplit' : m.types = (ts₁ ++ [t]) ++ ts₂ := by simp [hsplit]
    rw [setOldColumns, hset₁, Exec.ok_bind] at hset
    refine hfirst.trans (ih hsplit' holds₁' (by simpa using hfits) hold₁ ?_ (by simpa using hn))
    rw [List.length_append, List.length_singleton]
    exact hset

/-- The end of the record of an update. -/
def updateEnd (m : Meta.TableMeta) (row : List (Option (List UInt8))) (olds : List OldColumn) :
    Nat :=
  oldAt m (imageEnd m.types (cells m.types row)) + imageEnd m.types (oldCells 0 m.types olds)

theorem imageEnd_oldCells (E : Nat) (olds : List OldColumn) :
    imageEnd m.types (oldCells E m.types olds) = imageEnd m.types (oldCells 0 m.types olds) := by
  rw [imageEnd, imageEnd, dataSize_oldCells, dataSize_oldCells]

/-- An update is written below the end of its old image. -/
theorem writeUpdate_below (hbuilt : Built m) (hsize : fixedSize m.types < 2 ^ 16)
    (hrow : RowFits m.types row) (hE : E = imageEnd m.types (cells m.types row))
    (hEfits : E < 2 ^ 32)
    (holds : OldFits m.types olds) (hfits : imageEnd m.types (oldCells E m.types olds) < 2 ^ 32)
    (mem : RawMemory) :
    ∃ mem', writeUpdate mem m type row olds = .ok (recordOld m m.m_id E mem') ∧
      OldImage m type row E olds mem' ∧ ChangedBelow (updateEnd m row olds) mem mem' := by
  have hempty : imageEnd m.types [] ≤ imageEnd m.types (oldCells E m.types olds) := by
    simp only [imageEnd, dataSize, List.map_nil, List.sum_nil]
    omega
  have hend : updateEnd m row olds = oldAt m E + imageEnd m.types (oldCells E m.types olds) := by
    rw [updateEnd, hE, imageEnd_oldCells (imageEnd m.types (cells m.types row))]
  have hbehind : columnsAt m + E ≤ oldAt m E := by
    unfold oldAt updatedAt
    omega
  have hnil : m.types = [] ++ m.types := rfl
  have hnew : imageEnd m.types (cells m.types ([] ++ row)) = E := hE.symm
  obtain ⟨mem₁, hinit, hnew₁⟩ := initRecord_spec hbuilt hsize type mem (by omega)
  obtain ⟨mem₂, hset, hnew₂⟩ := setColumns_spec hbuilt hsize hnil .nil hrow (by omega) hnew₁
  obtain ⟨mem₃, hstart, hold₃⟩ :=
    startSetUpdateOldValue_spec hbuilt hsize hrow hE (by omega) hnew₂
  obtain ⟨mem₄, hsetOld, hold₄⟩ := setOldColumns_spec hbuilt hsize hrow hE hEfits hnil
    .nil holds hfits hold₃
  obtain ⟨mem₅, hfinish, hold₅⟩ := finishedSet_old hold₄
  have h₁ := initRecord_below (n := updateEnd m row olds) hbuilt hsize hinit (by omega)
  have h₂ := setColumns_below (n := updateEnd m row olds) hbuilt hsize hnil .nil hrow (by omega)
    hnew₁ hset (by omega)
  have h₃ := startSetUpdateOldValue_below (n := updateEnd m row olds) hbuilt hsize hrow hE hnew₂
    hstart (by omega)
  have h₄ := setOldColumns_below (n := updateEnd m row olds) hbuilt hsize hrow hE hEfits hnil
    .nil holds hfits hold₃ hsetOld (by rw [List.nil_append, hend])
  have h₅ := finishedSet_below (n := updateEnd m row olds) hfinish
    (by unfold columnsAt at hbehind; omega)
  have hset : setColumns (recordIn m m.m_id mem₁) 0 row = .ok (recordIn m m.m_id mem₂) := hset
  have hsetOld : setOldColumns (recordOld m m.m_id E mem₃) 0 olds =
      .ok (recordOld m m.m_id E mem₄) := hsetOld
  refine ⟨mem₅, ?_, hold₅, (((h₁.trans h₂).trans h₃).trans h₄).trans h₅⟩
  rw [writeUpdate, hinit, Exec.ok_bind, hset, Exec.ok_bind, hstart, Exec.ok_bind, hsetOld,
    Exec.ok_bind, hfinish]

/-! ## The last byte -/

theorem RowImage.At.last_byte {im : RowImage} {b T V : Nat} (h : im.At mem b T V)
    (h' : im.At mem' b T V) :
    mem' (b + (T + 4 * (V + 1) + im.data.length) - 1) =
      mem (b + (T + 4 * (V + 1) + im.data.length) - 1) := by
  by_cases hdata : im.data.length = 0
  · have hword : offsetAt mem' (b + T) V = offsetAt mem (b + T) V := h'.last.trans h.last.symm
    have hbyte := RawMemory.eq_of_readWord_eq hword (show 3 < 4 by omega)
    rw [show b + (T + 4 * (V + 1) + im.data.length) - 1 = b + T + 4 * V + 3 by omega]
    exact hbyte
  · have hread := h'.data.trans h.data.symm
    have hbyte := RawMemory.eq_of_read_eq hread (show im.data.length - 1 < im.data.length by omega)
    rw [show b + (T + 4 * (V + 1) + im.data.length) - 1 =
      b + T + 4 * (V + 1) + (im.data.length - 1) by omega]
    exact hbyte

theorem writeRow_within_iff (type : RecordType) (n : Nat) (hbuilt : Built m)
    (hsize : fixedSize m.types < 2 ^ 16)
    (hrow : RowFits m.types row) (hfits : imageEnd m.types (cells m.types row) < 2 ^ 32) :
    (∀ mem, ∃ w, writeRow mem m type row = .ok w ∧ ChangedBelow n mem w.mem) ↔
      recordEnd m row ≤ n := by
  have hwrite : ∀ mem, ∃ mem', writeRow mem m type row = .ok (recordIn m m.m_id mem') ∧
      NewImage m type row mem' ∧ ChangedBelow (recordEnd m row) mem mem' :=
    writeRow_below hbuilt hsize hrow hfits
  have hdata := (length_ofCells (T := fixedSize m.types) (V := varCount m.types)
    (fits_cells hrow)).2.2
  constructor
  · intro hwithin
    apply RawMemory.le_of_changedBelow (R := fun _ mem' => NewImage m type row mem')
    · simp only [recordEnd, columnsAt]
      omega
    · intro mem
      obtain ⟨mem', hwrite, hnew, -⟩ := hwrite mem
      obtain ⟨w, hwrite', hbelow⟩ := hwithin mem
      cases hwrite.symm.trans hwrite'
      exact ⟨mem', hnew, hbelow⟩
    · intro _ mem₁ _ mem₂ h₁ h₂
      have hbyte := h₁.image.last_byte h₂.image
      rw [hdata] at hbyte
      exact hbyte
  · intro hend mem
    obtain ⟨mem', hwrite, -, hbelow⟩ := hwrite mem
    exact ⟨_, hwrite, hbelow.mono hend⟩

theorem writeUpdate_within_iff (type : RecordType) (n : Nat) (hbuilt : Built m)
    (hsize : fixedSize m.types < 2 ^ 16)
    (hrow : RowFits m.types row) (hnew : imageEnd m.types (cells m.types row) < 2 ^ 32)
    (holds : OldFits m.types olds) (hfits : imageEnd m.types (oldCells 0 m.types olds) < 2 ^ 32) :
    (∀ mem, ∃ w, writeUpdate mem m type row olds = .ok w ∧ ChangedBelow n mem w.mem) ↔
      updateEnd m row olds ≤ n := by
  rw [← imageEnd_oldCells (imageEnd m.types (cells m.types row))] at hfits
  have hwrite : ∀ mem, ∃ mem', writeUpdate mem m type row olds =
      .ok (recordOld m m.m_id (imageEnd m.types (cells m.types row)) mem') ∧
      OldImage m type row (imageEnd m.types (cells m.types row)) olds mem' ∧
      ChangedBelow (updateEnd m row olds) mem mem' :=
    writeUpdate_below hbuilt hsize hrow rfl hnew holds hfits
  have hdata := (length_ofCells (T := fixedSize m.types) (V := varCount m.types)
    (fits_oldCells (E := imageEnd m.types (cells m.types row)) holds)).2.2
  constructor
  · intro hwithin
    apply RawMemory.le_of_changedBelow (R := fun _ mem' =>
      OldImage m type row (imageEnd m.types (cells m.types row)) olds mem')
    · simp only [updateEnd, oldAt, updatedAt, columnsAt]
      omega
    · intro mem
      obtain ⟨mem', hwrite, hold, -⟩ := hwrite mem
      obtain ⟨w, hwrite', hbelow⟩ := hwithin mem
      cases hwrite.symm.trans hwrite'
      exact ⟨mem', hold, hbelow⟩
    · intro _ mem₁ _ mem₂ h₁ h₂
      have hbyte := h₁.image.last_byte h₂.image
      rw [hdata, dataSize_oldCells] at hbyte
      exact hbyte
  · intro hend mem
    obtain ⟨mem', hwrite, -, hbelow⟩ := hwrite mem
    exact ⟨_, hwrite, hbelow.mono hend⟩

end DBStream.Native
