import DBStream.Spec.DMLRoundTrip

/-!
# Old values of updates

Behind the new image an update has two bitmaps and an image of the old values.  `OldImage` is what
holds of the memory after some of them.  An old null is not marked as updated, so that it reads as the
new value.  The size of an old value is read with the start of the column in the new image;
`Restorable` says for which rows it still comes out right.
-/

namespace DBStream.Native

open Meta RowImage DMLRecord

namespace DMLRecord.OldColumn

/-- A value is given, which is the only thing that marks the column as updated. -/
def isValue : OldColumn → Bool
  | .value _ => true
  | _ => false

/-- The old value of a column, from the new one. -/
def valueOf (new : Option (List UInt8)) : OldColumn → Option (List UInt8)
  | .notUpdate => new
  | .null => none
  | .value v => some v

end DMLRecord.OldColumn

/-! ## Old rows -/

/-- What is written of an old column, when the new image ends at `E`. -/
def oldCellOf (E : Nat) (t : Meta.ColumnType) : OldColumn → Cell
  | .notUpdate => cellOf t none
  | .null => { cellOf t none with start := some E }
  | .value v => cellOf t (some v)

/-- What is written of the first old columns. -/
def oldCells (E : Nat) (ts : List Meta.ColumnType) (olds : List OldColumn) : List Cell :=
  List.zipWith (oldCellOf E) ts olds

/-- An old row says something of each column. -/
def OldFits (ts : List Meta.ColumnType) (olds : List OldColumn) : Prop :=
  List.Forall₂ (fun t old => ValueFits t (old.valueOf none)) ts olds

/-- The bytes of the variable columns of a new row. -/
def newBytes (ts : List Meta.ColumnType) (row : List (Option (List UInt8))) : Nat :=
  dataSize (cells ts row)

/-- The bytes of the variable columns of an old row. -/
def oldBytes (ts : List Meta.ColumnType) (olds : List OldColumn) : Nat :=
  dataSize (oldCells 0 ts olds)

/-- The next variable column is set to an old null. -/
def NextNull (ts : List Meta.ColumnType) (olds : List OldColumn) : Prop :=
  ((ts.zip olds).find? fun p => !p.1.info.fixed).map Prod.snd = some .null

instance (ts : List Meta.ColumnType) (olds : List OldColumn) : Decidable (NextNull ts olds) :=
  inferInstanceAs (Decidable (_ = _))

/-- Write a row and its old values as an update into memory that may hold anything. -/
def writeUpdate (mem : RawMemory) (m : Meta.TableMeta) (type : RecordType)
    (row : List (Option (List UInt8))) (olds : List OldColumn) : Exec DMLRecord := do
  let r ← initRecord mem m type
  let r ← setColumns r 0 row
  let r ← r.startSetUpdateOldValue
  let r ← setOldColumns r 0 olds
  r.finishedSet

/-- A record shows an old value of a column. -/
structure ShowsOld (r : DMLRecord) (i : Nat) (t : Meta.ColumnType) (value : Option (List UInt8)) :
    Prop where
  isNull : r.oldColumnIsNull i = .ok value.isNone
  columnNull : value = none → r.oldColumnOfUpdateType i = .ok none
  columnValue : ∀ v, value = some v →
    ∃ p, r.oldColumnOfUpdateType i = .ok (some p) ∧ r.mem.read p v.length = v
  size : t.info.fixed = false → r.oldVarColumnSizeOfUpdateType i = .ok (value.getD []).length

/-- An update that is written and loaded again shows the old row. -/
def OldRoundTrips (mem : RawMemory) (m : Meta.TableMeta) (type : RecordType)
    (row : List (Option (List UInt8))) (olds : List OldColumn) : Prop :=
  ∃ w r, writeUpdate mem m type row olds = .ok w ∧ DMLRecord.load w.mem m = .ok r ∧
    ∀ i t new old, m.types[i]? = some t → row[i]? = some new → olds[i]? = some old →
      ShowsOld r i t (old.valueOf new)

/-- The old value of column `i` can be read back. -/
def RestorableAt (ts : List Meta.ColumnType) (row : List (Option (List UInt8)))
    (olds : List OldColumn) (i : Nat) (t : Meta.ColumnType) (new : Option (List UInt8))
    (old : OldColumn) : Prop :=
  (old = .null → new = none) ∧ ∀ v, old = .value v → t.info.fixed = false →
    if NextNull (ts.drop (i + 1)) (olds.drop (i + 1)) then
      v.length = newBytes (ts.drop i) (row.drop i)
    else oldBytes (ts.take i) (olds.take i) = newBytes (ts.take i) (row.take i)

/-- All old values can be read back. -/
def Restorable (ts : List Meta.ColumnType) (row : List (Option (List UInt8))) (olds : List OldColumn) :
    Prop :=
  ∀ i t new old, ts[i]? = some t → row[i]? = some new → olds[i]? = some old →
    RestorableAt ts row olds i t new old

variable {m : Meta.TableMeta} {type : RecordType} {ts ts₁ ts₂ : List Meta.ColumnType}
  {t : Meta.ColumnType}
  {row : List (Option (List UInt8))} {olds olds₁ olds₂ : List OldColumn} {old : OldColumn}
  {mem mem' : RawMemory} {E id : Nat} {r : DMLRecord}

theorem oldCells_append (h : ts₁.length = olds₁.length) :
    oldCells E (ts₁ ++ ts₂) (olds₁ ++ olds₂) = oldCells E ts₁ olds₁ ++ oldCells E ts₂ olds₂ :=
  List.zipWith_append h

private theorem oldCells_prefix (h : ts₁.length = olds.length) :
    oldCells E (ts₁ ++ ts₂) olds = oldCells E ts₁ olds := by
  have happend : oldCells E (ts₁ ++ ts₂) (olds ++ []) = oldCells E ts₁ olds ++ oldCells E ts₂ [] :=
    oldCells_append h
  simpa [oldCells] using happend

theorem type_oldCellOf (E : Nat) (t : Meta.ColumnType) (old : OldColumn) :
    (oldCellOf E t old).type = t := by
  cases old <;> rfl

theorem bytes_oldCellOf (E : Nat) (t : Meta.ColumnType) (old : OldColumn) :
    (oldCellOf E t old).bytes = (cellOf t (old.valueOf none)).bytes := by
  cases old <;> rfl

theorem types_oldCells (h : ts.length = olds.length) : (oldCells E ts olds).map Cell.type = ts := by
  induction ts generalizing olds with
  | nil => rfl
  | cons t ts ih =>
    cases olds with
    | nil => cases h
    | cons old olds =>
      have hrest := ih (Nat.succ.inj h)
      simpa [oldCells, type_oldCellOf] using hrest

theorem fits_oldCellOf (h : ValueFits t (old.valueOf none)) : (oldCellOf E t old).Fits := by
  have hfits := fits_cellOf h
  intro hfixed
  rw [type_oldCellOf] at hfixed ⊢
  rw [bytes_oldCellOf]
  exact hfits hfixed

theorem fits_oldCells (h : OldFits ts olds) : ∀ c ∈ oldCells E ts olds, c.Fits := by
  induction h with
  | nil => simp [oldCells]
  | cons hvalue _ ih =>
    intro c hc
    obtain rfl | hc := List.mem_cons.mp hc
    · exact fits_oldCellOf hvalue
    · exact ih c hc

theorem dataSize_oldCells (E : Nat) (ts : List Meta.ColumnType) (olds : List OldColumn) :
    dataSize (oldCells E ts olds) = oldBytes ts olds := by
  induction ts generalizing olds with
  | nil => rfl
  | cons t ts ih =>
    cases olds with
    | nil => rfl
    | cons old olds =>
      have hrest := ih olds
      simp only [oldBytes, oldCells, dataSize, List.zipWith_cons_cons, List.map_cons, List.sum_cons,
        type_oldCellOf, bytes_oldCellOf] at hrest ⊢
      rw [hrest]

/-! ## Writing old values -/

/-- A bitmap in which the columns with an old value are marked. -/
def Marks (p n : Nat) (olds : List OldColumn) (mem : RawMemory) : Prop :=
  ∀ j < n, mem.testBit p j = (olds[j]?).any OldColumn.isValue

/-- Where the bitmaps of an update are, when the new image ends at `E`. -/
def updatedAt (m : Meta.TableMeta) (E : Nat) : Nat := columnsAt m + E

def oldAt (m : Meta.TableMeta) (E : Nat) : Nat :=
  updatedAt m E + BITMAP_SIZE m.columnsCount + BITMAP_SIZE m.columnsCount

/-- The new row and some of the old values are written. -/
structure OldImage (m : Meta.TableMeta) (type : RecordType) (row : List (Option (List UInt8))) (E : Nat)
    (olds : List OldColumn) (mem : RawMemory) : Prop where
  new : NewImage m type row mem
  updated : Marks (updatedAt m E) m.columnsCount olds mem
  notNull : Marks (updatedAt m E + BITMAP_SIZE m.columnsCount) m.columnsCount olds mem
  image : (ofCells (fixedSize m.types) (varCount m.types) (oldCells E m.types olds)).At mem (oldAt m E)
    (fixedSize m.types) (varCount m.types)

/-- The record that `startSetUpdateOldValue` makes, in its memory. -/
def recordOld (m : Meta.TableMeta) (id E : Nat) (mem : RawMemory) : DMLRecord :=
  { recordIn m id mem with
    updatedBitmap := some (updatedAt m E)
    updatedNullBitmap := some (updatedAt m E + BITMAP_SIZE m.columnsCount)
    oldColumns := some (oldAt m E)
    oldVarLengthColumns := some (oldAt m E + fixedSize m.types) }

theorem Marks.congr {p n : Nat} (h : Marks p n olds mem)
    (hsame : ∀ a, p ≤ a → a < p + BITMAP_SIZE n → mem' a = mem a) : Marks p n olds mem' := by
  intro j hj
  have hbyte := div_lt_bitmapSize hj
  rw [← h j hj]
  exact RawMemory.testBit_congr (hsame _ (by omega) (by omega))

theorem any_concat (olds : List OldColumn) (old : OldColumn) (j : Nat) :
    ((olds ++ [old])[j]?).any OldColumn.isValue =
      (decide (j = olds.length) && old.isValue || (olds[j]?).any OldColumn.isValue) := by
  by_cases hj : j = olds.length
  · subst hj
    simp
  · by_cases hlt : j < olds.length
    · rw [List.getElem?_append_left hlt, decide_eq_false hj, Bool.false_and, Bool.false_or]
    · rw [List.getElem?_eq_none (by simp; omega), List.getElem?_eq_none (by omega)]
      simp [hj]

theorem Marks.set {p n : Nat} (h : Marks p n olds mem) (v : List UInt8) :
    Marks p n (olds ++ [.value v]) (mem.setBit p olds.length) := by
  intro j hj
  rw [RawMemory.testBit_setBit, any_concat, h j hj]
  simp [OldColumn.isValue]

theorem Marks.skip {p n : Nat} (h : Marks p n olds mem) (hold : old.isValue = false) :
    Marks p n (olds ++ [old]) mem := by
  intro j hj
  rw [any_concat, h j hj, hold]
  simp

theorem Marks.clear {p n : Nat} (h : Marks p n olds mem) :
    Marks p n olds (mem.clearBit p olds.length) := by
  intro j hj
  rw [RawMemory.testBit_clearBit, h j hj]
  by_cases hjo : j = olds.length
  · subst hjo
    simp
  · simp [hjo]

/-! ### One old value -/

section Setters

@[simp] theorem deref_updatedBitmap :
    deref (recordOld m id E mem).updatedBitmap = .ok (updatedAt m E) := rfl

@[simp] theorem deref_updatedNullBitmap : deref (recordOld m id E mem).updatedNullBitmap =
    .ok (updatedAt m E + BITMAP_SIZE m.columnsCount) := rfl

@[simp] theorem deref_oldColumns : deref (recordOld m id E mem).oldColumns = .ok (oldAt m E) := rfl

@[simp] theorem deref_oldVarLengthColumns :
    deref (recordOld m id E mem).oldVarLengthColumns = .ok (oldAt m E + fixedSize m.types) := rfl

variable (hcolumn : ColumnAt (recordOld m id E mem) ts₁ t)

include hcolumn

theorem setColumnNotUpdate_fixed (hfixed : t.info.fixed = true) :
    (recordOld m id E mem).setColumnNotUpdate ts₁.length = .ok (recordOld m id E
      ((mem.clearBit (updatedAt m E) ts₁.length).write (oldAt m E + fixedSize ts₁)
        (List.replicate t.info.columnTypeSize 0))) := by
  have hoffset := (hcolumn.fixed hfixed).2.1
  simp only [setColumnNotUpdate, hcolumn.type, hoffset, hfixed, deref_updatedBitmap,
    deref_oldColumns, Exec.ok_bind, if_true]
  rfl

theorem setColumnNotUpdate_var (hvar : t.info.fixed = false) {n : Nat}
    (hlast : offsetAt (mem.clearBit (updatedAt m E) ts₁.length) (oldAt m E + fixedSize m.types)
      m.m_varColumnCount = n) :
    (recordOld m id E mem).setColumnNotUpdate ts₁.length = .ok (recordOld m id E
      (setOffset (mem.clearBit (updatedAt m E) ts₁.length) (oldAt m E + fixedSize m.types)
        (varCount ts₁) n)) := by
  have hreal := hcolumn.var hvar
  rw [← hlast]
  simp only [setColumnNotUpdate, hcolumn.type, hreal, hvar, deref_updatedBitmap,
    deref_oldVarLengthColumns, Exec.ok_bind]
  rfl

theorem setUpdatedFixedColumnNull_eq (hfixed : t.info.fixed = true) :
    (recordOld m id E mem).setUpdatedFixedColumnNull ts₁.length = .ok (recordOld m id E
      ((mem.clearBit (updatedAt m E + BITMAP_SIZE m.columnsCount) ts₁.length).write
        (oldAt m E + fixedSize ts₁) (List.replicate t.info.columnTypeSize 0))) := by
  have hoffset := (hcolumn.fixed hfixed).2.1
  simp only [setUpdatedFixedColumnNull, hcolumn.type, hoffset, deref_updatedNullBitmap,
    deref_oldColumns, Exec.ok_bind]
  rfl

theorem setUpdatedVarColumnNull_eq (hvar : t.info.fixed = false) {n : Nat}
    (hlast : offsetAt (mem.clearBit (updatedAt m E + BITMAP_SIZE m.columnsCount) ts₁.length)
      (columnsAt m + fixedSize m.types) m.m_varColumnCount = n) :
    (recordOld m id E mem).setUpdatedVarColumnNull ts₁.length = .ok (recordOld m id E
      (setOffset (mem.clearBit (updatedAt m E + BITMAP_SIZE m.columnsCount) ts₁.length)
        (oldAt m E + fixedSize m.types) (varCount ts₁) n)) := by
  have hreal := hcolumn.var hvar
  rw [← hlast]
  simp only [setUpdatedVarColumnNull, hreal, deref_updatedNullBitmap,
    deref_oldVarLengthColumns, Exec.ok_bind]
  rfl

theorem setFixedUpdatedColumn_eq (hfixed : t.info.fixed = true) (v : List UInt8) :
    (recordOld m id E mem).setFixedUpdatedColumn ts₁.length v = .ok (recordOld m id E
      (((mem.write (oldAt m E + fixedSize ts₁) v).setBit
        (updatedAt m E + BITMAP_SIZE m.columnsCount) ts₁.length).setBit (updatedAt m E) ts₁.length)) := by
  have hoffset := (hcolumn.fixed hfixed).2.1
  simp only [setFixedUpdatedColumn, hoffset, deref_updatedBitmap, deref_updatedNullBitmap,
    deref_oldColumns, Exec.ok_bind]
  rfl

theorem setVardUpdatedColumn_eq (hvar : t.info.fixed = false) (hroom : varCount ts₁ ≠ m.m_varColumnCount)
    {n : Nat} (v : List UInt8)
    (hlast : offsetAt mem (oldAt m E + fixedSize m.types) m.m_varColumnCount = n)
    (hbehind : offsetAt (mem.write (oldAt m E + n) v) (oldAt m E + fixedSize m.types)
      m.m_varColumnCount = n) :
    (recordOld m id E mem).setVardUpdatedColumn ts₁.length v = .ok (recordOld m id E
      (((setOffset (setOffset (mem.write (oldAt m E + n) v) (oldAt m E + fixedSize m.types)
        (varCount ts₁) n) (oldAt m E + fixedSize m.types) m.m_varColumnCount (n + v.length)).setBit
          (updatedAt m E + BITMAP_SIZE m.columnsCount) ts₁.length).setBit (updatedAt m E) ts₁.length)) := by
  have hreal : realIndex (recordOld m id E (mem.write (oldAt m E + n) v)) ts₁.length =
      .ok (varCount ts₁) := hcolumn.var hvar
  have hfilled : filledVardUpdatedColumn (recordOld m id E (mem.write (oldAt m E + n) v)) ts₁.length
      v.length = .ok (recordOld m id E ((setOffset (setOffset (mem.write (oldAt m E + n) v)
        (oldAt m E + fixedSize m.types) (varCount ts₁) n) (oldAt m E + fixedSize m.types)
          m.m_varColumnCount (n + v.length)).setBit (updatedAt m E + BITMAP_SIZE m.columnsCount)
            ts₁.length)) := by
    rw [filledVardUpdatedColumn, hreal, Exec.ok_bind, deref_oldVarLengthColumns, Exec.ok_bind]
    have hmem : (recordOld m id E (mem.write (oldAt m E + n) v)).mem = mem.write (oldAt m E + n) v := rfl
    have hcount : (recordOld m id E (mem.write (oldAt m E + n) v)).meta'.m_varColumnCount =
        m.m_varColumnCount := rfl
    dsimp only
    rw [hmem, hcount, hbehind, offsetAt_setOffset_of_ne (Ne.symm hroom), hbehind]
    rfl
  have hstart : (recordOld m id E mem).setVardUpdatedColumn ts₁.length v =
      filledVardUpdatedColumn (recordOld m id E (mem.write (oldAt m E +
        offsetAt mem (oldAt m E + fixedSize m.types) m.m_varColumnCount) v)) ts₁.length v.length >>=
          fun r => deref r.updatedBitmap >>= fun p =>
            .ok { r with mem := r.mem.setBit p ts₁.length } := rfl
  rw [hstart, hlast, hfilled]
  rfl

end Setters

/-- A table with a new row that is written, the place of its end, and the next old column. -/
structure OldNext (m : Meta.TableMeta) (row : List (Option (List UInt8))) (E : Nat)
    (ts₁ : List Meta.ColumnType) (t : Meta.ColumnType) (olds : List OldColumn) : Prop where
  built : Built m
  size : fixedSize m.types < 2 ^ 16
  rowFits : RowFits m.types row
  newEnd : E = imageEnd m.types (cells m.types row)
  newFits : E < 2 ^ 32
  split : ∃ ts₂, m.types = ts₁ ++ t :: ts₂
  oldsFit : OldFits ts₁ olds

theorem OldNext.updatedAt_eq (h : OldNext m row E ts₁ t olds) : updatedAt m E = recordEnd m row := by
  rw [updatedAt, recordEnd, h.newEnd]

theorem OldImage.clear (hnext : OldNext m row E ts₁ t olds) (h : OldImage m type row E olds mem)
    {p : Nat} (hp : p = updatedAt m E ∨ p = updatedAt m E + BITMAP_SIZE m.columnsCount) :
    OldImage m type row E olds (mem.clearBit p olds.length) := by
  obtain ⟨ts₂, hsplit⟩ := hnext.split
  have hbit := div_lt_bitmapSize (lt_columnsCount hsplit)
  rw [show ts₁.length = olds.length from hnext.oldsFit.length_eq] at hbit
  have hsame : ∀ a, (a < updatedAt m E ∨ oldAt m E ≤ a) → mem.clearBit p olds.length a = mem a := by
    intro a ha
    refine RawMemory.clearBit_of_ne ?_
    unfold oldAt at ha
    omega
  constructor
  · refine h.new.congr hnext.rowFits fun a ha => hsame a (.inl ?_)
    rwa [hnext.updatedAt_eq]
  · obtain rfl | rfl := hp
    · exact h.updated.clear
    · exact h.updated.congr fun a _ ha => RawMemory.clearBit_of_ne (by omega)
  · obtain rfl | rfl := hp
    · exact h.notNull.congr fun a ha _ => RawMemory.clearBit_of_ne (by omega)
    · exact h.notNull.clear
  · exact h.image.congr_of_ge fun a ha => hsame a (.inr ha)

/-- The old image with the next column. -/
def NextImage (m : Meta.TableMeta) (E : Nat) (ts₁ : List Meta.ColumnType) (t : Meta.ColumnType)
    (olds : List OldColumn) (old : OldColumn) (mem : RawMemory) : Prop :=
  (push (fixedSize m.types) (varCount m.types)
    (ofCells (fixedSize m.types) (varCount m.types) (oldCells E ts₁ olds)) (oldCellOf E t old)).At mem
      (oldAt m E) (fixedSize m.types) (varCount m.types)

theorem NextImage.image (hnext : OldNext m row E ts₁ t olds) (h : NextImage m E ts₁ t olds old mem) :
    (ofCells (fixedSize m.types) (varCount m.types) (oldCells E m.types (olds ++ [old]))).At mem
      (oldAt m E) (fixedSize m.types) (varCount m.types) := by
  obtain ⟨ts₂, hsplit⟩ := hnext.split
  have hcells : oldCells E m.types (olds ++ [old]) = oldCells E ts₁ olds ++ [oldCellOf E t old] := by
    rw [hsplit, oldCells_append hnext.oldsFit.length_eq]
    simp [oldCells]
  rw [hcells, ofCells_concat]
  exact h

theorem OldImage.skip (hnext : OldNext m row E ts₁ t olds) (h : OldImage m type row E olds mem)
    (hold : old.isValue = false) (hsame : ∀ a < oldAt m E, mem' a = mem a)
    (himage : NextImage m E ts₁ t olds old mem') : OldImage m type row E (olds ++ [old]) mem' := by
  unfold oldAt at hsame
  constructor
  · refine h.new.congr hnext.rowFits fun a ha => hsame a ?_
    rw [← hnext.updatedAt_eq] at ha
    omega
  · exact (h.updated.skip hold).congr fun a _ ha => hsame a (by omega)
  · exact (h.notNull.skip hold).congr fun a _ ha => hsame a (by omega)
  · exact himage.image hnext

theorem OldImage.set (hnext : OldNext m row E ts₁ t olds) (h : OldImage m type row E olds mem)
    (v : List UInt8) (hsame : ∀ a < oldAt m E, mem' a = mem a)
    (himage : NextImage m E ts₁ t olds (.value v) mem') :
    OldImage m type row E (olds ++ [.value v]) ((mem'.setBit
      (updatedAt m E + BITMAP_SIZE m.columnsCount) olds.length).setBit (updatedAt m E) olds.length) := by
  obtain ⟨ts₂, hsplit⟩ := hnext.split
  have hbit := div_lt_bitmapSize (lt_columnsCount hsplit)
  rw [show ts₁.length = olds.length from hnext.oldsFit.length_eq] at hbit
  unfold oldAt at hsame
  constructor
  · refine h.new.congr hnext.rowFits fun a ha => ?_
    rw [← hnext.updatedAt_eq] at ha
    rw [RawMemory.setBit_of_ne (by omega), RawMemory.setBit_of_ne (by omega), hsame a (by omega)]
  · refine Marks.set (h.updated.congr fun a _ ha => ?_) v
    rw [RawMemory.setBit_of_ne (by omega), hsame a (by omega)]
  · have hmarks := Marks.set (h.notNull.congr fun a _ ha => hsame a (by omega)) v
    exact hmarks.congr fun a ha _ => RawMemory.setBit_of_ne (by omega)
  · refine (himage.image hnext).congr_of_ge fun a ha => ?_
    unfold oldAt at ha
    rw [RawMemory.setBit_of_ne (by omega), RawMemory.setBit_of_ne (by omega)]

theorem OldImage.before (hnext : OldNext m row E ts₁ t olds) (h : OldImage m type row E olds mem) :
    Next (fixedSize m.types) (varCount m.types) ts₁ t
        (ofCells (fixedSize m.types) (varCount m.types) (oldCells E ts₁ olds)) ∧
      (ofCells (fixedSize m.types) (varCount m.types) (oldCells E ts₁ olds)).At mem (oldAt m E)
        (fixedSize m.types) (varCount m.types) ∧
      (ofCells (fixedSize m.types) (varCount m.types) (oldCells E ts₁ olds)).data.length =
        dataSize (oldCells E ts₁ olds) := by
  obtain ⟨ts₂, hsplit⟩ := hnext.split
  have hlen : ts₁.length = olds.length := hnext.oldsFit.length_eq
  obtain ⟨hfixed, hstarts, hdata⟩ := length_ofCells (T := fixedSize m.types) (V := varCount m.types)
    (fits_oldCells (E := E) hnext.oldsFit)
  rw [types_oldCells hlen] at hfixed hstarts
  have himage := h.image
  rw [hsplit, oldCells_prefix hlen, ← hsplit] at himage
  exact ⟨next_of_split hsplit hfixed hstarts, himage, hdata⟩

/-- Setting an old column adds it to the old image. -/
theorem setOldColumn_spec (hnext : OldNext m row E ts₁ t olds) (hold : ValueFits t (old.valueOf none))
    (hfits : imageEnd m.types (oldCells E ts₁ olds ++ [oldCellOf E t old]) < 2 ^ 32)
    (h : OldImage m type row E olds mem) :
    ∃ mem', (recordOld m id E mem).setOldColumn olds.length old = .ok (recordOld m id E mem') ∧
      OldImage m type row E (olds ++ [old]) mem' := by
  obtain ⟨ts₂, hsplit⟩ := hnext.split
  have hlen : ts₁.length = olds.length := hnext.oldsFit.length_eq
  have hcolumn : ColumnAt (recordOld m id E mem) ts₁ t :=
    columnAt (recordOld m id E mem) hnext.built hnext.size hsplit
  have hcount : m.m_varColumnCount = varCount m.types := hnext.built.varCount
  obtain ⟨hplace, himage, hdata⟩ := h.before hnext
  rw [imageEnd, dataSize_append, ← hdata] at hfits
  unfold setOldColumn
  rw [← hlen, hcolumn.type, Exec.ok_bind]
  cases old with
  | notUpdate =>
    have hclear := h.clear hnext (.inl rfl)
    obtain ⟨-, hcleared, -⟩ := hclear.before hnext
    cases hfixed : t.info.fixed with
    | true =>
      refine ⟨_, setColumnNotUpdate_fixed hcolumn hfixed, ?_⟩
      rw [hlen]
      refine hclear.skip hnext rfl (fun a ha => RawMemory.write_of_lt (by omega)) ?_
      have hnone : ValueFits t none := hold
      have hpush := hcleared.pushFixed (c := cellOf t none) hplace hfixed (fits_cellOf hnone)
      rwa [bytes_null_fixed hfixed] at hpush
    | false =>
      have hlast := hcleared.last
      rw [← hlen, ← hcount] at hlast
      refine ⟨_, setColumnNotUpdate_var hcolumn hfixed hlast, ?_⟩
      rw [hlen, hcount]
      refine hclear.skip hnext rfl (fun a ha => RawMemory.write_of_lt (by omega)) ?_
      exact hcleared.pushNull (c := cellOf t none) hplace hfixed (bytes_null_var hfixed) rfl (by omega)
  | null =>
    have hclear := h.clear hnext (.inr rfl)
    obtain ⟨-, hcleared, -⟩ := hclear.before hnext
    cases hfixed : t.info.fixed with
    | true =>
      refine ⟨_, setUpdatedFixedColumnNull_eq hcolumn hfixed, ?_⟩
      rw [hlen]
      refine hclear.skip hnext rfl (fun a ha => RawMemory.write_of_lt (by omega)) ?_
      have hpush := hcleared.pushFixed (c := oldCellOf E t .null) hplace hfixed (fits_oldCellOf hold)
      rwa [bytes_oldCellOf, OldColumn.valueOf, bytes_null_fixed hfixed] at hpush
    | false =>
      -- the start that is stored is the end of the new image
      have hlast : offsetAt (mem.clearBit (updatedAt m E + BITMAP_SIZE m.columnsCount) ts₁.length)
          (columnsAt m + fixedSize m.types) m.m_varColumnCount = E := by
        rw [hcount, hlen, hclear.new.image.last, (length_ofCells (fits_cells hnext.rowFits)).2.2,
          hnext.newEnd, imageEnd]
      refine ⟨_, setUpdatedVarColumnNull_eq hcolumn hfixed hlast, ?_⟩
      rw [hlen]
      refine hclear.skip hnext rfl (fun a ha => RawMemory.write_of_lt (by omega)) ?_
      exact hcleared.pushNull (c := oldCellOf E t .null) hplace hfixed (bytes_null_var hfixed) rfl
        hnext.newFits
  | value v =>
    cases hfixed : t.info.fixed with
    | true =>
      refine ⟨_, setFixedUpdatedColumn_eq hcolumn hfixed v, ?_⟩
      rw [hlen]
      refine h.set hnext v (fun a ha => RawMemory.write_of_lt (by omega)) ?_
      exact himage.pushFixed (c := oldCellOf E t (.value v)) hplace hfixed (fits_oldCellOf hold)
    | false =>
      have hroom : varCount ts₁ ≠ m.m_varColumnCount := by
        rw [hcount]
        exact Nat.ne_of_lt (hplace.roomVar hfixed)
      have hlast := himage.last
      have hbehind := himage.last_write (v := v) (Nat.le_add_right _
        (ofCells (fixedSize m.types) (varCount m.types) (oldCells E ts₁ olds)).data.length)
      have hbytes : dataSize [oldCellOf E t (.value v)] = v.length := by
        simp [dataSize, oldCellOf, cellOf, hfixed]
      rw [hbytes] at hfits
      rw [← hcount] at hlast hbehind hfits
      refine ⟨_, setVardUpdatedColumn_eq hcolumn hfixed hroom v hlast hbehind, ?_⟩
      rw [hlen, hcount]
      rw [hcount] at hfits
      refine h.set hnext v (fun a ha => ?_) ?_
      · simp only [setOffset, RawMemory.writeWord]
        rw [RawMemory.write_of_lt (by omega), RawMemory.write_of_lt (by omega),
          RawMemory.write_of_lt (by omega)]
      · exact himage.pushVar (c := oldCellOf E t (.value v)) hplace hfixed rfl
          (by simpa [oldCellOf, cellOf, Nat.add_assoc] using hfits)

/-! ## The update -/

/-- Behind the new image begins an old one without columns. -/
theorem startSetUpdateOldValue_spec (hbuilt : Built m) (hsize : fixedSize m.types < 2 ^ 16)
    (hrow : RowFits m.types row) (hE : E = imageEnd m.types (cells m.types row))
    (hfits : imageEnd m.types [] < 2 ^ 32) (h : NewImage m type row mem) :
    ∃ mem', (recordIn m id mem).startSetUpdateOldValue = .ok (recordOld m id E mem') ∧
      OldImage m type row E [] mem' := by
  have hlast : offsetAt mem (columnsAt m + fixedSize m.types) m.m_varColumnCount = E := by
    rw [hbuilt.varCount, h.image.last, (length_ofCells (fits_cells hrow)).2.2, hE, imageEnd]
  have hvalue : oldAt m E + fixedSize m.types + 4 * (m.m_varColumnCount + 1) - oldAt m E =
      imageEnd m.types [] := by
    simp only [hbuilt.varCount, imageEnd, dataSize, List.map_nil, List.sum_nil]
    omega
  let cleared := mem.write (updatedAt m E) (List.replicate (BITMAP_SIZE m.columnsCount * 2) 0)
  refine ⟨setOffset cleared (oldAt m E + fixedSize m.types) m.m_varColumnCount (imageEnd m.types []),
    ?_, ?_⟩
  · have htotal : tableAt (recordIn m id mem).meta'.m_fixedColumnOffsetsInRecord
        (recordIn m id mem).meta'.m_fixedColumnCount = .ok (fixedSize m.types) := by
      rw [← Nat.mod_eq_of_lt hsize]
      exact hbuilt.total
    rw [← hvalue, startSetUpdateOldValue, htotal]
    subst hlast
    rfl
  · have hsame : ∀ a < oldAt m E, setOffset cleared (oldAt m E + fixedSize m.types) m.m_varColumnCount
        (imageEnd m.types []) a = cleared a := fun a ha => RawMemory.write_of_lt (by omega)
    have hold : oldAt m E = updatedAt m E + BITMAP_SIZE m.columnsCount * 2 := by
      unfold oldAt
      omega
    have hzero (a : Nat) (ha : updatedAt m E ≤ a) (hlt : a < oldAt m E) : cleared a = 0 :=
      RawMemory.write_replicate ha (by omega)
    constructor
    · refine h.congr hrow fun a ha => ?_
      have ha : a < updatedAt m E := by rwa [updatedAt, hE]
      rw [hsame a (by omega)]
      exact RawMemory.write_of_lt ha
    · intro j hj
      have hbyte := div_lt_bitmapSize hj
      refine RawMemory.testBit_of_zero ?_
      rw [hsame _ (by omega)]
      exact hzero _ (by omega) (by omega)
    · intro j hj
      have hbyte := div_lt_bitmapSize hj
      refine RawMemory.testBit_of_zero ?_
      rw [hsame _ (by omega)]
      exact hzero _ (by omega) (by omega)
    · constructor
      · simp [ofCells, oldCells, RawMemory.read]
      · intro r s hs
        simp [ofCells, oldCells] at hs
      · rw [hbuilt.varCount, offsetAt_setOffset_self hfits]
        simp [imageEnd, ofCells, oldCells, dataSize]
      · simp [ofCells, oldCells, RawMemory.read]

theorem setOldColumns_spec (hbuilt : Built m) (hsize : fixedSize m.types < 2 ^ 16)
    (hrow : RowFits m.types row) (hE : E = imageEnd m.types (cells m.types row)) (hEfits : E < 2 ^ 32)
    (hsplit : m.types = ts₁ ++ ts₂) (holds₁ : OldFits ts₁ olds₁) (holds₂ : OldFits ts₂ olds₂)
    (hfits : imageEnd m.types (oldCells E m.types (olds₁ ++ olds₂)) < 2 ^ 32)
    (h : OldImage m type row E olds₁ mem) :
    ∃ mem', setOldColumns (recordOld m id E mem) olds₁.length olds₂ = .ok (recordOld m id E mem') ∧
      OldImage m type row E (olds₁ ++ olds₂) mem' := by
  induction holds₂ generalizing ts₁ olds₁ mem with
  | nil => exact ⟨mem, rfl, by rwa [List.append_nil]⟩
  | @cons t old ts₂ olds₂ hold _ ih =>
    have hcells : oldCells E m.types (olds₁ ++ old :: olds₂) =
        (oldCells E ts₁ olds₁ ++ [oldCellOf E t old]) ++ oldCells E ts₂ olds₂ := by
      rw [hsplit, oldCells_append holds₁.length_eq]
      simp [oldCells]
    have hsmall : imageEnd m.types (oldCells E ts₁ olds₁ ++ [oldCellOf E t old]) < 2 ^ 32 := by
      rw [hcells, imageEnd, dataSize_append] at hfits
      rw [imageEnd]
      omega
    obtain ⟨mem₁, hset, hold₁⟩ := setOldColumn_spec
      ⟨hbuilt, hsize, hrow, hE, hEfits, ⟨ts₂, hsplit⟩, holds₁⟩ hold hsmall h
    have holds₁' : OldFits (ts₁ ++ [t]) (olds₁ ++ [old]) := List.rel_append holds₁ (.cons hold .nil)
    have hsplit' : m.types = (ts₁ ++ [t]) ++ ts₂ := by simp [hsplit]
    obtain ⟨mem₂, hsets, hold₂⟩ := ih hsplit' holds₁' (by simpa using hfits) hold₁
    refine ⟨mem₂, ?_, by simpa using hold₂⟩
    rw [setOldColumns, hset]
    rw [List.length_append, List.length_singleton] at hsets
    exact hsets

theorem finishedSet_old (h : OldImage m type row E olds mem) :
    ∃ mem', (recordOld m id E mem).finishedSet = .ok (recordOld m id E mem') ∧
      OldImage m type row E olds mem' := by
  have hsame (n : Nat) : ∀ a, 4 ≤ a → mem.writeWord 4 0 n a = mem a := fun a ha =>
    RawMemory.write_of_ge (by simpa using ha)
  have hbyte (p n : Nat) (hp : 4 ≤ p) : (mem.writeWord 4 0 n).readWord 1 p = mem.readWord 1 p :=
    RawMemory.readWord_writeWord_of_disjoint (.inr hp)
  refine ⟨_, rfl, ⟨⟨⟨?_, ?_, ?_⟩, ?_⟩, ?_, ?_, ?_⟩⟩
  · exact (hbyte 5 _ (by omega)).trans h.new.front.headSize
  · exact (hbyte 6 _ (by omega)).trans h.new.front.type
  · intro j hj
    rw [← h.new.front.bits j hj]
    exact RawMemory.testBit_congr (hsame _ _ (by omega))
  · exact h.new.image.congr_of_ge fun a ha => hsame _ a (by unfold columnsAt at ha; omega)
  · exact h.updated.congr fun a ha _ => hsame _ a (by unfold updatedAt columnsAt at ha; omega)
  · exact h.notNull.congr fun a ha _ => hsame _ a (by unfold updatedAt columnsAt at ha; omega)
  · exact h.image.congr_of_ge fun a ha => hsame _ a (by unfold oldAt updatedAt columnsAt at ha; omega)

theorem load_old (hbuilt : Built m) (hsize : fixedSize m.types < 2 ^ 16)
    (htype : type = .R_UPDATE ∨ type = .R_REPLACE) (hrow : RowFits m.types row)
    (hE : E = imageEnd m.types (cells m.types row)) (h : OldImage m type row E olds mem) :
    DMLRecord.load mem m = .ok (recordOld m (mem.readWord 8 38) E mem) := by
  have hupdate : type.code = RecordType.R_UPDATE.code ∨ type.code = RecordType.R_REPLACE.code := by
    obtain rfl | rfl := htype
    · exact .inl rfl
    · exact .inr rfl
  have hlast : offsetAt mem (columnsAt m + fixedSize m.types) m.m_varColumnCount = E := by
    rw [hbuilt.varCount, h.new.image.last, (length_ofCells (fits_cells hrow)).2.2, hE, imageEnd]
  have htwice : columnsAt m + E + BITMAP_SIZE m.columnsCount * 2 = oldAt m E := by
    unfold oldAt updatedAt
    omega
  unfold DMLRecord.load
  rw [h.new.front.headSize, hbuilt.total, Nat.mod_eq_of_lt hsize, Exec.ok_bind]
  dsimp only
  rw [h.new.front.type, if_pos hupdate]
  have hcolumns : recordHeadSize + 8 + BITMAP_SIZE m.columnsCount = columnsAt m := rfl
  rw [hcolumns, hlast, htwice]
  rfl

/-! ## Reading old values -/

variable {i : Nat} {new value : Option (List UInt8)}

private theorem nextNull_cons_fixed (h : t.info.fixed = true) :
    NextNull (t :: ts) (old :: olds) ↔ NextNull ts olds := by
  simp [NextNull, h]

private theorem nextNull_cons_var (h : t.info.fixed = false) :
    NextNull (t :: ts) (old :: olds) ↔ old = .null := by
  simp [NextNull, h]

theorem nextStart_oldCells (n E : Nat) (ts : List Meta.ColumnType) (olds : List OldColumn) :
    nextStart n (oldCells E ts olds) = if NextNull ts olds then E else n := by
  induction ts generalizing olds with
  | nil => rfl
  | cons t ts ih =>
    cases olds with
    | nil => rfl
    | cons old olds =>
      cases hfixed : t.info.fixed with
      | true =>
        have hrest := ih olds
        simp only [nextNull_cons_fixed hfixed]
        simpa [nextStart, oldCells, type_oldCellOf, hfixed] using hrest
      | false =>
        simp only [nextNull_cons_var hfixed]
        cases old <;> simp [nextStart, oldCells, oldCellOf, cellOf, hfixed]

theorem Shows.showsOld (h : Shows (recordOld m id E mem) i t value)
    (hmark : mem.testBit (updatedAt m E) i = false) : ShowsOld (recordOld m id E mem) i t value := by
  have hmark : (recordOld m id E mem).mem.testBit (updatedAt m E) i = false := hmark
  constructor
  · simp [oldColumnIsNull, hmark, h.isNull]
  · simpa [oldColumnOfUpdateType, hmark] using h.columnNull
  · simpa [oldColumnOfUpdateType, hmark] using h.columnValue
  · simpa [oldVarColumnSizeOfUpdateType, hmark] using h.size

theorem showsOld_value_iff {v : List UInt8} (hmark : mem.testBit (updatedAt m E) i = true)
    (hnull : mem.testBit (updatedAt m E + BITMAP_SIZE m.columnsCount) i = true)
    (hcolumn : ∃ p, (recordOld m id E mem)._column i (updatedAt m E + BITMAP_SIZE m.columnsCount)
      (oldAt m E) (oldAt m E + fixedSize m.types) = .ok (some p) ∧
        (recordOld m id E mem).mem.read p v.length = v) :
    ShowsOld (recordOld m id E mem) i t (some v) ↔ (t.info.fixed = false →
      (recordOld m id E mem)._varColumnSize i (updatedAt m E + BITMAP_SIZE m.columnsCount)
        (oldAt m E + fixedSize m.types) = .ok v.length) := by
  have hmark : (recordOld m id E mem).mem.testBit (updatedAt m E) i = true := hmark
  have hnull : (recordOld m id E mem).mem.testBit (updatedAt m E + BITMAP_SIZE m.columnsCount) i =
      true := hnull
  constructor
  · intro h
    simpa [oldVarColumnSizeOfUpdateType, hmark] using h.size
  · intro hsize
    constructor
    · simp [oldColumnIsNull, hmark, hnull]
    · exact fun h => nomatch h
    · rintro v' ⟨⟩
      simpa [oldColumnOfUpdateType, hmark] using hcolumn
    · simpa [oldVarColumnSizeOfUpdateType, hmark] using hsize

theorem sub32_eq_iff {n len x : Nat} (hx : x < 2 ^ 32) (hn : n < 2 ^ 32) (hlen : len < 2 ^ 32) :
    sub32 x n = len ↔ x = n + len ∨ x + 2 ^ 32 = n + len := by
  rw [sub32, Nat.mod_eq_of_lt hn]
  omega

/-- A column, its new value and what is said of its old one, with those before and behind it. -/
structure SplitAt (ts : List Meta.ColumnType) (row : List (Option (List UInt8)))
    (olds : List OldColumn)
    (ts₁ : List Meta.ColumnType) (row₁ : List (Option (List UInt8))) (olds₁ : List OldColumn)
    (t : Meta.ColumnType) (new : Option (List UInt8)) (old : OldColumn)
    (ts₂ : List Meta.ColumnType) (row₂ : List (Option (List UInt8))) (olds₂ : List OldColumn) :
    Prop where
  types : ts = ts₁ ++ t :: ts₂
  row : row = row₁ ++ new :: row₂
  olds : olds = olds₁ ++ old :: olds₂
  length_row : ts₁.length = row₁.length
  length_olds : ts₁.length = olds₁.length

variable {olds₁ olds₂ : List OldColumn} {row₁ row₂ : List (Option (List UInt8))}

theorem splitAt_of_getElem? (ht : ts[i]? = some t) (hnew : row[i]? = some new)
    (hold : olds[i]? = some old) : ∃ ts₁ ts₂ row₁ row₂ olds₁ olds₂, i = ts₁.length ∧
      SplitAt ts row olds ts₁ row₁ olds₁ t new old ts₂ row₂ olds₂ := by
  obtain ⟨ts₁, ts₂, hts, rfl⟩ := List.exists_append_cons_of_getElem? ht
  obtain ⟨row₁, row₂, hrow, hlen⟩ := List.exists_append_cons_of_getElem? hnew
  obtain ⟨olds₁, olds₂, holds, hlen'⟩ := List.exists_append_cons_of_getElem? hold
  exact ⟨ts₁, ts₂, row₁, row₂, olds₁, olds₂, rfl, hts, hrow, holds, hlen.symm, hlen'.symm⟩

theorem SplitAt.restorableAt_iff
    (h : SplitAt ts row olds ts₁ row₁ olds₁ t new old ts₂ row₂ olds₂) :
    RestorableAt ts row olds ts₁.length t new old ↔
      (old = .null → new = none) ∧ ∀ v, old = .value v → t.info.fixed = false →
        if NextNull ts₂ olds₂ then v.length = newBytes (t :: ts₂) (new :: row₂)
        else oldBytes ts₁ olds₁ = newBytes ts₁ row₁ := by
  obtain ⟨rfl, rfl, rfl, hrow, holds⟩ := h
  simp only [RestorableAt, ← List.tail_drop, List.take_left, List.drop_left,
    List.take_left' hrow.symm, List.drop_left' hrow.symm, List.take_left' holds.symm,
    List.drop_left' holds.symm, List.tail_cons]

/-- A column that is not marked as updated is read as the new one. -/
theorem OldImage.showsOld_new (h : OldImage m type row E olds mem) (hbuilt : Built m)
    (hsize : fixedSize m.types < 2 ^ 16) (hrow : RowFits m.types row)
    (hE : E = imageEnd m.types (cells m.types row)) (hEfits : E < 2 ^ 32)
    (ht : m.types[i]? = some t) (hnew : row[i]? = some new) (hold : olds[i]? = some old)
    (hmark : old.isValue = false) : ShowsOld (recordOld m id E mem) i t new := by
  have hshows : Shows (recordOld m id E mem) i t new :=
    h.new.shows hbuilt hsize hrow (hE ▸ hEfits) rfl rfl rfl rfl rfl ht hnew
  obtain ⟨ts₁, ts₂, htypes, rfl⟩ := List.exists_append_cons_of_getElem? ht
  have hupdated := h.updated _ (lt_columnsCount htypes)
  rw [hold, Option.any_some, hmark] at hupdated
  exact hshows.showsOld hupdated

section

variable (hrow : RowFits m.types row) (hE : E = imageEnd m.types (cells m.types row))
  (hEfits : E < 2 ^ 32) (holds : OldFits m.types olds)
  (hfits : imageEnd m.types (oldCells E m.types olds) < 2 ^ 32)

include hrow hE hEfits holds hfits

/-- The size of an old value is right if the next one is null and it has the length of the new
    bytes, or its start is where the new one starts. -/
theorem oldSize_iff (h : OldImage m type row E olds mem) {v : List UInt8}
    (hsplit : SplitAt m.types row olds ts₁ row₁ olds₁ t new (.value v) ts₂ row₂ olds₂)
    (hvar : t.info.fixed = false) (hcolumn : ColumnAt (recordOld m id E mem) ts₁ t)
    (hnull : mem.testBit (updatedAt m E + BITMAP_SIZE m.columnsCount) ts₁.length = true) :
    (recordOld m id E mem)._varColumnSize ts₁.length (updatedAt m E + BITMAP_SIZE m.columnsCount)
        (oldAt m E + fixedSize m.types) = .ok v.length ↔
      if NextNull ts₂ olds₂ then v.length = newBytes (t :: ts₂) (new :: row₂)
      else oldBytes ts₁ olds₁ = newBytes ts₁ row₁ := by
  obtain ⟨htypes, hrows, holdss, hlenRow, hlenOlds⟩ := hsplit
  have hnewCells : cells m.types row = cells ts₁ row₁ ++ cells (t :: ts₂) (new :: row₂) := by
    rw [htypes, hrows, cells_append hlenRow]
  have holdCells : oldCells E m.types olds =
      oldCells E ts₁ olds₁ ++ oldCellOf E t (.value v) :: oldCells E ts₂ olds₂ := by
    rw [htypes, holdss, oldCells_append hlenOlds]
    rfl
  have holdTypes : (oldCells E ts₁ olds₁).map Cell.type = ts₁ := types_oldCells hlenOlds
  have hV : varCount m.types = varCount ((oldCells E ts₁ olds₁ ++ oldCellOf E t (.value v) ::
      oldCells E ts₂ olds₂).map Cell.type) := by
    rw [← holdCells, types_oldCells holds.length_eq]
  have holdFits := fits_oldCells (E := E) holds
  have holdImage := h.image
  have hnewFits := fits_cells hrow
  have hnewImage := h.new.image
  rw [holdCells] at holdFits holdImage hfits
  rw [hnewCells] at hnewFits hnewImage hE
  -- the start of the column in the new image
  have hstart := (hnewImage.read_var (fun d hd => hnewFits d (List.mem_append_left _ hd)) hvar).1
  rw [types_cells hlenRow] at hstart
  have hread : offsetAt (recordOld m id E mem).mem (recordOld m id E mem).varLengthColumns
      (varCount ts₁) = fixedSize m.types + 4 * (varCount m.types + 1) + newBytes ts₁ row₁ := hstart
  have hsizes : imageEnd m.types (cells m.types row) = fixedSize m.types + 4 * (varCount m.types + 1) +
      newBytes ts₁ row₁ + newBytes (t :: ts₂) (new :: row₂) := by
    rw [hnewCells, imageEnd, dataSize_append, Nat.add_assoc _ (newBytes ts₁ row₁)]
    rfl
  rw [← hnewCells, hsizes] at hE
  have hbytes : (oldCellOf E t (.value v)).bytes = v := rfl
  rw [imageEnd, dataSize_append, dataSize_cons hvar, dataSize_oldCells, hbytes] at hfits
  rw [varColumnSize_spec hcolumn holdTypes holdFits hvar hV holdImage hnull, nextStart_oldCells, hread,
    dataSize_oldCells, hbytes, Except.ok.injEq, sub32_eq_iff _ (by omega) (by omega)]
  · split <;> omega
  · split <;> omega

/-- An old value is shown as it was set if and only if it is restorable. -/
theorem OldImage.showsOld_iff (hbuilt : Built m) (hsize : fixedSize m.types < 2 ^ 16)
    (h : OldImage m type row E olds mem) (ht : m.types[i]? = some t) (hnew : row[i]? = some new)
    (hold : olds[i]? = some old) : ShowsOld (recordOld m id E mem) i t (old.valueOf new) ↔
      RestorableAt m.types row olds i t new old := by
  have hread : old.isValue = false → ShowsOld (recordOld m id E mem) i t new :=
    h.showsOld_new hbuilt hsize hrow hE hEfits ht hnew hold
  obtain ⟨ts₁, ts₂, row₁, row₂, olds₁, olds₂, rfl, hsplit⟩ := splitAt_of_getElem? ht hnew hold
  have hcount : ts₁.length < m.columnsCount := lt_columnsCount hsplit.types
  have hmark := h.updated _ hcount
  have hnull := h.notNull _ hcount
  rw [hold] at hmark hnull
  rw [hsplit.restorableAt_iff]
  cases old with
  | notUpdate =>
    exact ⟨fun _ => ⟨fun h => (nomatch h), fun _ h => (nomatch h)⟩, fun _ => hread rfl⟩
  | null =>
    have hread := hread rfl
    constructor
    · intro hnone
      have heq := hread.isNull.symm.trans hnone.isNull
      exact ⟨fun _ => by simpa [OldColumn.valueOf] using heq, fun _ h => nomatch h⟩
    · rintro ⟨hnone, -⟩
      rw [hnone rfl] at hread
      exact hread
  | value v =>
    have hcolumn : ColumnAt (recordOld m id E mem) ts₁ t :=
      columnAt (recordOld m id E mem) hbuilt hsize hsplit.types
    have hvalue : ∃ p, (recordOld m id E mem)._column ts₁.length
        (updatedAt m E + BITMAP_SIZE m.columnsCount) (oldAt m E) (oldAt m E + fixedSize m.types) =
          .ok (some p) ∧ (recordOld m id E mem).mem.read p v.length = v := by
      have holdFits := fits_oldCells (E := E) holds
      have himage := h.image
      rw [hsplit.types, hsplit.olds, oldCells_append hsplit.length_olds] at holdFits himage
      rw [← hsplit.types] at himage
      exact column_spec (c := oldCellOf E t (.value v)) hcolumn (types_oldCells hsplit.length_olds)
        holdFits rfl himage hnull
    rw [OldColumn.valueOf, showsOld_value_iff hmark hnull hvalue]
    constructor
    · intro hsize
      refine ⟨fun h => (nomatch h), ?_⟩
      rintro v' ⟨⟩ hvar
      exact (oldSize_iff hrow hE hEfits holds hfits h hsplit hvar hcolumn hnull).mp (hsize hvar)
    · intro hrest hvar
      exact (oldSize_iff hrow hE hEfits holds hfits h hsplit hvar hcolumn hnull).mpr
        (hrest.2 v rfl hvar)

end

theorem writeUpdate_spec (hbuilt : Built m) (hsize : fixedSize m.types < 2 ^ 16)
    (htype : type = .R_UPDATE ∨ type = .R_REPLACE) (hrow : RowFits m.types row)
    (hE : E = imageEnd m.types (cells m.types row)) (hEfits : E < 2 ^ 32) (holds : OldFits m.types olds)
    (hfits : imageEnd m.types (oldCells E m.types olds) < 2 ^ 32) (mem : RawMemory) :
    ∃ mem', writeUpdate mem m type row olds = .ok (recordOld m m.m_id E mem') ∧
      DMLRecord.load mem' m = .ok (recordOld m (mem'.readWord 8 38) E mem') ∧
      OldImage m type row E olds mem' := by
  have hempty : imageEnd m.types [] < 2 ^ 32 := by
    simp only [imageEnd, dataSize, List.map_nil, List.sum_nil] at hfits ⊢
    omega
  have hnil : m.types = [] ++ m.types := rfl
  obtain ⟨mem₁, hinit, hnew₁⟩ := initRecord_spec hbuilt hsize type mem hempty
  obtain ⟨mem₂, hset, hnew₂⟩ := setColumns_spec hbuilt hsize hnil .nil hrow
    (by rw [List.nil_append, ← hE]; exact hEfits) hnew₁
  obtain ⟨mem₃, hstart, hold₃⟩ :=
    startSetUpdateOldValue_spec hbuilt hsize hrow hE hempty hnew₂
  obtain ⟨mem₄, hsetOld, hold₄⟩ := setOldColumns_spec hbuilt hsize hrow hE hEfits hnil
    .nil holds hfits hold₃
  obtain ⟨mem₅, hfinish, hold₅⟩ := finishedSet_old hold₄
  refine ⟨mem₅, ?_, load_old hbuilt hsize htype hrow hE hold₅, hold₅⟩
  have hset : setColumns (recordIn m m.m_id mem₁) 0 row = .ok (recordIn m m.m_id mem₂) := hset
  have hsetOld : setOldColumns (recordOld m m.m_id E mem₃) 0 olds = .ok (recordOld m m.m_id E mem₄) :=
    hsetOld
  rw [writeUpdate, hinit, Exec.ok_bind, hset, Exec.ok_bind, hstart, Exec.ok_bind, hsetOld,
    Exec.ok_bind, hfinish]

theorem oldRoundTrips_of_built (hbuilt : Built m) (hsize : fixedSize m.types < 2 ^ 16)
    (htype : type = .R_UPDATE ∨ type = .R_REPLACE) (hrow : RowFits m.types row)
    (holds : OldFits m.types olds) (hnew : imageEnd m.types (cells m.types row) < 2 ^ 32)
    (hold : imageEnd m.types (oldCells 0 m.types olds) < 2 ^ 32) (mem : RawMemory) :
    OldRoundTrips mem m type row olds ↔ Restorable m.types row olds := by
  have hfits : imageEnd m.types (oldCells (imageEnd m.types (cells m.types row)) m.types olds) <
      2 ^ 32 := by
    rw [imageEnd, dataSize_oldCells] at hold ⊢
    exact hold
  obtain ⟨mem', hwrite, hload, himage⟩ := writeUpdate_spec hbuilt hsize htype hrow rfl hnew holds hfits
    mem
  have hcolumns (i : Nat) (t : Meta.ColumnType) (new : Option (List UInt8)) (old : OldColumn)
      (ht : m.types[i]? = some t) (hnewAt : row[i]? = some new) (holdAt : olds[i]? = some old) :
      ShowsOld (recordOld m (mem'.readWord 8 38) (imageEnd m.types (cells m.types row)) mem') i t
        (old.valueOf new) ↔ RestorableAt m.types row olds i t new old :=
    himage.showsOld_iff hrow rfl hnew holds hfits hbuilt hsize ht hnewAt holdAt
  constructor
  · rintro ⟨w, r, hwrite', hload', hshows⟩ i t new old ht hnewAt holdAt
    cases hwrite.symm.trans hwrite'
    cases hload.symm.trans hload'
    exact (hcolumns i t new old ht hnewAt holdAt).mp (hshows i t new old ht hnewAt holdAt)
  · intro hrest
    refine ⟨_, _, hwrite, hload, ?_⟩
    intro i t new old ht hnewAt holdAt
    exact (hcolumns i t new old ht hnewAt holdAt).mpr (hrest i t new old ht hnewAt holdAt)

/-- An update comes back with its old row if and only if each old null has a new null and the sizes
    of the old values can be read with the starts of the new ones. -/
theorem oldRoundTrips_iff (t : Meta.TableMeta) (hsize : fixedSize t.types < 2 ^ 16)
    (htype : type = .R_UPDATE ∨ type = .R_REPLACE) (hrow : RowFits t.types row)
    (holds : OldFits t.types olds) (hnew : imageEnd t.types (cells t.types row) < 2 ^ 32)
    (hold : imageEnd t.types (oldCells 0 t.types olds) < 2 ^ 32) (mem : RawMemory) :
    OldRoundTrips mem t.buildColumnOffsetList type row olds ↔ Restorable t.types row olds :=
  oldRoundTrips_of_built (built_buildColumnOffsetList t) hsize htype hrow holds hnew hold mem

theorem rowFits_smallTable (v : List UInt8) (hv : v.length = 4) (b c : Option (List UInt8)) :
    RowFits smallTable.types [some v, b, c] := by
  refine .cons ?_ (.cons (fun _ _ h => (nomatch h)) (.cons (fun _ _ h => (nomatch h)) .nil))
  rintro _ ⟨⟩ _
  exact hv

theorem oldFits_smallTable (b c : OldColumn) : OldFits smallTable.types [.notUpdate, b, c] :=
  .cons (fun _ h => (nomatch h)) (.cons (fun _ _ h => (nomatch h))
    (.cons (fun _ _ h => (nomatch h)) .nil))

/-- An update of the first of two texts. -/
theorem oldRoundTrips_iff_smallTable :
    OldRoundTrips (fun _ => 0) smallTable.buildColumnOffsetList .R_UPDATE
      [some [1, 2, 3, 4], some [65, 66], some [65]] [.notUpdate, .value [67], .notUpdate] := by
  refine (oldRoundTrips_iff smallTable (by decide) (.inl rfl) (rowFits_smallTable _ rfl _ _)
    (oldFits_smallTable _ _) (by decide) (by decide) _).mpr ?_
  intro i t new old ht hnew hold
  match i with
  | 0 | 2 =>
    cases hold
    exact ⟨fun h => (nomatch h), fun _ h => (nomatch h)⟩
  | 1 =>
    cases hold
    refine ⟨fun h => (nomatch h), ?_⟩
    rintro v ⟨⟩ -
    decide
  | n + 3 => simp at hold

/-- An old null of a column that has a value, and old texts of which the first one has another
    length than the new one, do not come back. -/
theorem oldRoundTrips_smallTable :
    ¬OldRoundTrips (fun _ => 0) smallTable.buildColumnOffsetList .R_UPDATE
      [some [1, 2, 3, 4], some [65], some [66]] [.notUpdate, .null, .notUpdate] ∧
    ¬OldRoundTrips (fun _ => 0) smallTable.buildColumnOffsetList .R_UPDATE
      [some [1, 2, 3, 4], some [65], some [66]] [.notUpdate, .value [67, 68], .value [69]] := by
  have hbuilt := built_buildColumnOffsetList smallTable
  constructor
  · intro h
    have hrest := (oldRoundTrips_of_built hbuilt (by decide) (.inl rfl) (rowFits_smallTable _ rfl _ _)
      (oldFits_smallTable _ _) (by decide) (by decide) _).mp h
    have hnull := (hrest 1 .T_STRING (some [65]) .null rfl rfl rfl).1 rfl
    cases hnull
  · intro h
    have hrest := (oldRoundTrips_of_built hbuilt (by decide) (.inl rfl) (rowFits_smallTable _ rfl _ _)
      (oldFits_smallTable _ _) (by decide) (by decide) _).mp h
    have hsizes := (hrest 2 .T_STRING (some [66]) (.value [69]) rfl rfl rfl).2 [69] rfl rfl
    revert hsizes
    decide

end DBStream.Native
