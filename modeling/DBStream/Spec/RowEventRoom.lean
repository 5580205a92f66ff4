import DBStream.Spec.DMLRecordRoom
import DBStream.Spec.RowEventDecode

/-!
# Room for the rows of an event

The parser gives each record four times the size of the event.  A column that is null takes one bit
of the event and the bytes of its type in the record, so the record of a row of nulls can be longer.
-/

namespace DBStream.Native.DATA_SOURCE

open Meta DMLRecord
open RawMemory (ChangedBelow)

/-! ## Records of rows -/

/-- The record in the memory behind the `DMLRecord`. -/
def ParsedRow.build (r : ParsedRow) (mem : RawMemory) : Exec DMLRecord :=
  match r.olds with
  | none => writeRow mem r.meta' r.type r.row
  | some olds => writeUpdate mem r.meta' r.type r.row olds

/-- Building the record changes nothing behind the memory that is allocated for it. -/
def ParsedRow.StaysWithin (r : ParsedRow) : Prop :=
  ∀ mem, ∃ w, r.build mem = .ok w ∧ ChangedBelow r.room mem w.mem

namespace RowsBody

/-- The record of each row ends within `n` bytes: the head, the bitmap, the fixed columns, the
    starts of the other columns and their values; of an update these again, behind two bitmaps. -/
def EndsWithin (m : Meta.TableMeta) (n : Nat) : RowsBody → Prop
  | write rows => ∀ im ∈ rows, recordEnd m im.row ≤ n
  | delete rows => ∀ im ∈ rows, recordEnd m im.row ≤ n
  | update _ rows => ∀ im ∈ rows, updateEnd m im.1.row (im.2.row.map BinlogEventParser.oldColumn) ≤ n

instance (m : Meta.TableMeta) (n : Nat) : (body : RowsBody) → Decidable (body.EndsWithin m n)
  | write rows => inferInstanceAs (Decidable (∀ im ∈ rows, recordEnd m im.row ≤ n))
  | delete rows => inferInstanceAs (Decidable (∀ im ∈ rows, recordEnd m im.row ≤ n))
  | update _ rows => inferInstanceAs (Decidable (∀ im ∈ rows,
      updateEnd m im.1.row (im.2.row.map BinlogEventParser.oldColumn) ≤ n))

theorem EndsWithin.mono {m : Meta.TableMeta} {n k : Nat} {body : RowsBody} (h : body.EndsWithin m n)
    (hk : n ≤ k) : body.EndsWithin m k := by
  cases body with
  | write rows => exact fun im him => (h im him).trans hk
  | delete rows => exact fun im him => (h im him).trans hk
  | update updated rows => exact fun im him => (h im him).trans hk

end RowsBody

/-- The bytes that are allocated behind the `DMLRecord`, for a row of an event of this size. -/
def recordRoom (size : Nat) : Nat := recordHeadSize + size * 4 % 2 ^ 32

/-! ## The records of an event -/

variable {p : BinlogEventParser} {m : Meta.TableMeta} {E : List ColumnEncoding} {ev : RowsEvent}

/-- The values of the fixed columns have the sizes of their types. -/
def ValuesFit (m : Meta.TableMeta) (E : List ColumnEncoding) : Prop :=
  List.Forall₂ (fun t e => ∀ v, e.Valid v → ValueFits t (some v)) m.types E

theorem rowFits_of_valid {ts : List Meta.ColumnType} {row : Row}
    (h : List.Forall₂ (fun t (e : ColumnEncoding) => ∀ v, e.Valid v → ValueFits t (some v)) ts E)
    (hvalid : RowValid E row) : RowFits ts row := by
  induction h generalizing row with
  | nil =>
    cases hvalid
    exact .nil
  | @cons t e ts E hvalue _ ih =>
    obtain _ | @⟨_, value, _, row, hcell, hvalid⟩ := hvalid
    refine .cons ?_ (ih hvalid)
    rintro v rfl
    exact hvalue v (hcell v rfl) v rfl

theorem oldFits_of_rowFits {ts : List Meta.ColumnType} {row : Row} (h : RowFits ts row) :
    OldFits ts (row.map BinlogEventParser.oldColumn) := by
  rw [OldFits, List.forall₂_map_right_iff]
  apply h.imp
  intro t value hvalue
  cases value with
  | none => exact hvalue
  | some v => exact hvalue

private theorem eventSize_bytes (ev : RowsEvent) (size : Nat) (rest : List UInt8) :
    eventSize (ev.head size ++ rest) = size % 2 ^ 32 := by
  have hslice : (ev.head size ++ rest).slice EVENT_LEN_OFFSET 4 = LE.bytes 4 size := by
    have hfront : (LE.bytes 4 ev.timestamp ++ ev.type :: LE.bytes 4 ev.serverId).length =
        EVENT_LEN_OFFSET := by simp [EVENT_LEN_OFFSET]
    rw [RowsEvent.head, List.append_assoc, List.append_assoc, List.append_assoc, List.append_assoc,
      ← Nat.add_zero EVENT_LEN_OFFSET, List.slice_append_right_of_eq _ 0 4 hfront, List.slice,
      List.drop_zero, List.take_left' (LE.length_bytes 4 _)]
  rw [eventSize, korr, hslice, LE.nat_bytes]
  norm_num

theorem newRecord_room (type : RecordType) (behind : List UInt8) :
    (p.newRecord (ev.bytes E ++ behind) m type).room = recordRoom (ev.size E) := by
  simp only [BinlogEventParser.newRecord, recordRoom, RowsEvent.bytes, List.append_assoc,
    eventSize_bytes]
  omega

theorem parser_of_readable (h : ev.Of E p m) (behind : List UInt8)
    (hread : ev.body.Readable E ev.columns)
    (hcount : ev.body.count ≤ M_PARSER_RECORD_CACHE_VOLUMN) :
    p.parser (ev.bytes E ++ behind) (ev.size E) = .ok (some (.OK,
      ev.body.records (p.newRecord (ev.bytes E ++ behind) m ev.body.recordType))) := by
  have hrows := rowsOf_records h behind hread
  have hlength : (ev.body.records (p.newRecord (ev.bytes E ++ behind) m
      ev.body.recordType)).length ≤ M_PARSER_RECORD_CACHE_VOLUMN := by
    cases hev : ev.body <;> simpa [RowsBody.records, RowsBody.count, hev] using hcount
  rw [parser_bytes h, (parseRows_eq_ok (parseRow_ne_OK _ _ _) _).mpr ⟨hrows, hlength⟩]
  rfl

section Rows

variable (record : ParsedRow) (hbuilt : Built record.meta')
  (hsize : fixedSize record.meta'.types < 2 ^ 16) (hvalues : ValuesFit record.meta' E)

include hbuilt hsize hvalues

theorem staysWithin_image_iff (holds : record.olds = none) {im : Image} (hvalid : RowValid E im.row)
    (hbound : recordEnd record.meta' im.row ≤ 2 ^ 32 + 45) :
    { record with row := im.row : ParsedRow }.StaysWithin ↔
      recordEnd record.meta' im.row ≤ record.room := by
  have hfits : imageEnd record.meta'.types (cells record.meta'.types im.row) < 2 ^ 32 := by
    unfold recordEnd columnsAt at hbound
    omega
  have hiff := writeRow_within_iff record.type record.room hbuilt hsize
    (rowFits_of_valid hvalues hvalid) hfits
  simpa [ParsedRow.StaysWithin, ParsedRow.build, holds] using hiff

theorem staysWithin_update_iff {im : Image × Image} (hbefore : RowValid E im.1.row)
    (hafter : RowValid E im.2.row)
    (hbound : updateEnd record.meta' im.1.row (im.2.row.map BinlogEventParser.oldColumn) ≤
      2 ^ 32 + 45) :
    (updateRecord record im).StaysWithin ↔
      updateEnd record.meta' im.1.row (im.2.row.map BinlogEventParser.oldColumn) ≤ record.room := by
  unfold updateEnd oldAt updatedAt columnsAt at hbound
  have hnew : imageEnd record.meta'.types (cells record.meta'.types im.1.row) < 2 ^ 32 := by omega
  have hold : imageEnd record.meta'.types (oldCells 0 record.meta'.types
    (im.2.row.map BinlogEventParser.oldColumn)) < 2 ^ 32 := by omega
  have hiff := writeUpdate_within_iff (m := record.meta') record.type record.room hbuilt hsize
    (rowFits_of_valid hvalues hbefore) hnew
    (oldFits_of_rowFits (rowFits_of_valid hvalues hafter)) hold
  exact hiff

end Rows

end DBStream.Native.DATA_SOURCE
