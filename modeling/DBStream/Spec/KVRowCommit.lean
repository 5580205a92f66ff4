import DBStream.Spec.DMLRoundTrip
import DBStream.Spec.KVRollback

/-!
# What a commit shows

A row has an image: the values of its columns, or none if it does not exist.  `Op.act` is what an
operation is for, as a map of images.  A client works on a row that was committed last.  What a
commit would show after each of its operations (`CommitsShow`) is the image that its successful
operations lead to, if and only if no operation faults and each that succeeds is `Clean`.

An update is not clean if its changes are out of order and one that is passed over would have had an
effect.  A drop that comes to the row always faults, and so does the update of a version that an
update has made.
-/

namespace DBStream.Native.KVDB

open Meta Cells

/-! ## Images -/

/-- The values of the columns of a row, or none if there is no row. -/
abbrev Image := Option (List (Option (List UInt8)))

/-- Change some columns, one after the other. -/
def setColumns (columns : List (Option (List UInt8))) (change : List ColumnChange) :
    List (Option (List UInt8)) :=
  change.foldl (fun columns c => columns.set c.columnId c.newValue) columns

def Op.act (image : Image) : Op → Image
  | .insert _ data => some data.columns
  | .update _ change => image.map fun columns => setColumns columns change
  | .drop _ => none

/-- The image that a version holds. -/
def Version.image (v : Version) : Image := if v.isDelete then none else v.data.map RowData.columns

namespace Row

/-- The image that a pointer of the row leads to. -/
def imageAt (r : Row) (p : Option Nat) : Image := (p.bind r.mem.get).bind Version.image

def Selects (r : Row) (image : Image) : Prop :=
  match image with
  | some columns => ∃ v, r.select = .ok (none, some v) ∧ v.data.map RowData.columns = some columns
  | none => r.select = .ok (some (.ROW_NOT_EXIST, "select failed for row not exist"), none)

end Row

/-! ## Runs -/

/-- The operations of a client that go well. -/
def succeeded (uid : Nat) : List Op → Client → Row → List Op
  | [], _, _ => []
  | op :: ops, c, r =>
    match op.apply uid c.m_txnId r with
    | .error _ => []
    | .ok (none, r) => op :: succeeded uid ops (c.newOperator none) r
    | .ok (some e, r) => succeeded uid ops (c.newOperator (some e)) r

/-- The changes up to the first one that is not for a later column than the one before. -/
def ascendingFrom : Nat → List ColumnChange → List ColumnChange
  | _, [] => []
  | i, c :: cs => if i ≤ c.columnId then c :: ascendingFrom (c.columnId + 1) cs else []

/-- The changes of an update that are out of order have no effect on the last version. -/
def Op.Clean (r : Row) : Op → Prop
  | .update _ change => ∀ columns, r.imageAt r.tail = some columns →
      setColumns columns (ascendingFrom 0 change) = setColumns columns change
  | _ => True

variable {r r' : Row} {uid tid new t : Nat} {op : Op} {ops : List Op} {c : Client} {status : Status}
  {v w d : Version} {image : Image} {change : List ColumnChange}

/-! ## The memory of an update -/

/-- The bytes of a column that has no fixed size. -/
def varSize (c : ColumnMeta) (value : Option (List UInt8)) : Nat :=
  if c.m_columnType.info.fixed then 0 else (value.getD []).length

namespace Row

theorem Selects.unique {image' : Image} (h : r.Selects image) (h' : r.Selects image') :
    image = image' := by
  cases image with
  | none =>
    cases image' with
    | none => rfl
    | some columns' =>
      obtain ⟨v, hv, -⟩ := h'
      cases h.symm.trans hv
  | some columns =>
    obtain ⟨v, hv, hcolumns⟩ := h
    cases image' with
    | none => cases hv.symm.trans h'
    | some columns' =>
      obtain ⟨w, hw, hcolumns'⟩ := h'
      cases hv.symm.trans hw
      exact hcolumns.symm.trans hcolumns'

end Row

/-! ## One operation -/

theorem Wrote.lockable (h : Wrote r uid tid op status r') (hlock : r.Lockable uid) :
    r'.Lockable uid := by
  cases h with
  | refused _ => exact hlock
  | unlocked _ _ => exact .inl rfl
  | first _ _ => exact .inr rfl
  | behind _ _ _ _ => exact .inr rfl
  | changed _ _ _ => exact .inr rfl

/-! ## All operations -/

section Record

open RowImage DMLRecord

theorem sum_varSizes (cs : List ColumnMeta) (row : List (Option (List UInt8))) :
    (List.zipWith (fun c value => if c.m_columnType.info.fixed then 0 else (value.getD []).length)
      cs row).sum = dataSize (cells (cs.map ColumnMeta.m_columnType) row) := by
  induction cs generalizing row with
  | nil => rfl
  | cons c cs ih =>
    cases row with
    | nil => rfl
    | cons value row =>
      rw [List.zipWith_cons_cons, List.sum_cons, ih row]
      cases hfixed : c.m_columnType.info.fixed <;> simp [cells, dataSize, cellOf, hfixed]

theorem RowData.recordSize_eq (d : RowData) (hbuilt : Built d.meta')
    (hsize : fixedSize d.meta'.types < 2 ^ 16) : d.recordSize = recordEnd d.meta' d.columns := by
  have htotal := getElem?_of_tableAt hbuilt.total
  rw [recordSize, varSizes, sum_varSizes, DMLRecord.allocSize, hbuilt.varCount,
    List.getD_eq_getElem?_getD, htotal, Option.getD_some, Nat.mod_eq_of_lt hsize]
  simp only [recordEnd, columnsAt, imageEnd, recordHeadSize, TableMeta.types]
  omega

/-- The record that is written for a row shows its columns, and has the size that the version of an
    insert keeps. -/
theorem Version.record_of_allocForInsert (d : RowData) (hbuilt : Built d.meta')
    (hsize : fixedSize d.meta'.types < 2 ^ 16) (hrow : RowFits d.meta'.types d.columns)
    (hsmall : d.recordSize < 2 ^ 32) (mem : RawMemory) :
    ∃ w rec, writeRow mem d.meta' .R_INSERT d.columns = .ok w ∧
      DMLRecord.load w.mem d.meta' = .ok rec ∧
      (∀ i t value, d.meta'.types[i]? = some t → d.columns[i]? = some value → Shows rec i t value) ∧
      (allocForInsert d).size = some rec.size := by
  have heq := d.recordSize_eq hbuilt hsize
  rw [heq, recordEnd] at hsmall
  obtain ⟨w, rec, hwrite, hload, hshows, hend⟩ :=
    writeRow_spec hbuilt hsize (.inl rfl) hrow (by omega) mem
  refine ⟨w, rec, hwrite, hload, hshows, ?_⟩
  rw [hend, ← heq]
  rfl

end Record

/-! ## A row of two columns -/

end DBStream.Native.KVDB
