import DBStream.Spec.RowEventImage
import Mathlib.Algebra.BigOperators.Group.List.Basic

/-!
# Rows events

A rows event as MySQL writes it, and the records that the parser makes of it.  The parser finds the
header of every event and the images that are readable; of an update it takes the first image to be
the new one.
-/

namespace DBStream.Native.DATA_SOURCE

open Meta DMLRecord
open DATA_SOURCE.BinlogEventParser (parseRows)

/-! ## The event -/

/-- The rows of an event.  A row of an update is its image before the update and the image after it,
    for which other columns may be present. -/
inductive RowsBody where
  | write (rows : List Image)
  | delete (rows : List Image)
  | update (updated : List UInt8) (rows : List (Image × Image))

namespace RowsBody

def recordType : RowsBody → RecordType
  | write _ => .R_INSERT
  | delete _ => .R_DELETE
  | update _ _ => .R_UPDATE

def isUpdate : RowsBody → Bool
  | update _ _ => true
  | _ => false

def eventType (v1 : Bool) : RowsBody → UInt8
  | write _ => if v1 then WRITE_ROWS_EVENT_V1 else WRITE_ROWS_EVENT
  | delete _ => if v1 then DELETE_ROWS_EVENT_V1 else DELETE_ROWS_EVENT
  | update _ _ => if v1 then UPDATE_ROWS_EVENT_V1 else UPDATE_ROWS_EVENT

/-- The second bitmap of columns, which only an update has. -/
def updatedColumns : RowsBody → List UInt8
  | update updated _ => updated
  | _ => []

def count : RowsBody → Nat
  | write rows => rows.length
  | delete rows => rows.length
  | update _ rows => rows.length

variable (E : List ColumnEncoding) (columns : List UInt8)

def bytes : RowsBody → List UInt8
  | write rows => rows.flatMap fun im => im.bytes E
  | delete rows => rows.flatMap fun im => im.bytes E
  | update _ rows => rows.flatMap fun im => im.1.bytes E ++ im.2.bytes E

/-- The images are images of MySQL with the columns that the bitmaps say. -/
def Of : RowsBody → Prop
  | write rows => ∀ im ∈ rows, im.Of E (bit columns)
  | delete rows => ∀ im ∈ rows, im.Of E (bit columns)
  | update updated rows => updated.length = (E.length + 7) / 8 ∧
      ∀ im ∈ rows, im.1.Of E (bit columns) ∧ im.2.Of E (bit updated)

def Readable : RowsBody → Prop
  | write rows => ∀ im ∈ rows, im.Readable E (bit columns)
  | delete rows => ∀ im ∈ rows, im.Readable E (bit columns)
  | update updated rows => ∀ im ∈ rows,
      im.1.Readable E (bit columns) ∧ im.2.Readable E (bit updated)

instance : (body : RowsBody) → Decidable (body.Readable E columns)
  | write rows => inferInstanceAs (Decidable (∀ im ∈ rows, im.Readable E (bit columns)))
  | delete rows => inferInstanceAs (Decidable (∀ im ∈ rows, im.Readable E (bit columns)))
  | update updated rows => inferInstanceAs (Decidable (∀ im ∈ rows,
      im.1.Readable E (bit columns) ∧ im.2.Readable E (bit updated)))

end RowsBody

/-- A rows event with the fields of its headers. -/
structure RowsEvent where
  timestamp : Nat := 0
  serverId : Nat := 0
  eventOffset : Nat := 0
  flag : Nat := 0
  headRest : List UInt8 := []
  v1 : Bool := false
  postHeaderLen : UInt8 := ROWS_HEADER_LEN_V2
  tableId : Nat := 0
  flags : Nat := 0
  extra : List UInt8 := []
  columns : List UInt8
  body : RowsBody
  checksum : List UInt8 := []

def netLength (n : Nat) : List UInt8 :=
  if n < 251 then LE.bytes 1 n
  else if n < 2 ^ 16 then 252 :: LE.bytes 2 n
  else if n < 2 ^ 24 then 253 :: LE.bytes 3 n
  else 254 :: LE.bytes 8 n

namespace RowsEvent

variable (ev : RowsEvent) (E : List ColumnEncoding)

def type : UInt8 := ev.body.eventType ev.v1

/-- The common header of an event of so many bytes. -/
def head (size : Nat) : List UInt8 :=
  LE.bytes 4 ev.timestamp ++ ev.type :: LE.bytes 4 ev.serverId ++ LE.bytes 4 size ++
    LE.bytes 4 ev.eventOffset ++ LE.bytes 2 ev.flag ++ ev.headRest

def idWidth : Nat := if ev.postHeaderLen = 6 then 4 else 6

def extraBytes : List UInt8 :=
  if ev.postHeaderLen = ROWS_HEADER_LEN_V2 then LE.bytes 2 (ev.extra.length + 2) ++ ev.extra else []

def postHeader : List UInt8 :=
  LE.bytes ev.idWidth ev.tableId ++ LE.bytes 2 ev.flags ++ ev.extraBytes

def content : List UInt8 :=
  ev.postHeader ++ (netLength E.length ++ (ev.columns ++ (ev.body.updatedColumns ++
    (ev.body.bytes E ++ ev.checksum))))

def size : Nat := 19 + ev.headRest.length + (ev.content E).length

def bytes : List UInt8 := ev.head (ev.size E) ++ ev.content E

/-- The event is one of a server with this format, for the table of the last table map. -/
structure Of (p : BinlogEventParser) (m : Meta.TableMeta) : Prop where
  commonHeader : p.m_descEvent.common_header_len.toNat = 19 + ev.headRest.length
  postHeader : p.m_descEvent.post_header_len[ev.type.toNat - 1]? = some ev.postHeaderLen
  postHeaderLen :
    ev.postHeaderLen = 6 ∨ ev.postHeaderLen = 8 ∨ ev.postHeaderLen = ROWS_HEADER_LEN_V2
  extra : ev.extra.length + 2 < 2 ^ 16
  tableId : p.m_tableMap.tableID = ev.tableId
  tableId_lt : ev.tableId < 256 ^ ev.idWidth
  eventOffset : ev.eventOffset < 2 ^ 32
  lookup : p.m_metaDataManager p.m_tableMap.dbName p.m_tableMap.tableName
    (createMysqlRecordOffset p.m_currentFileID ev.eventOffset) = some m
  table : TableMatches p m E
  columnCount : 1 ≤ E.length ∧ E.length < 2 ^ 32
  columns : ev.columns.length = (E.length + 7) / 8
  body : ev.body.Of E ev.columns
  checksum : ev.checksum.length = p.checksumLen

end RowsEvent

/-! ## What is to be found -/

/-- The values set in a record are those of an image, in the columns that are present. -/
def ShowsNew (E : List ColumnEncoding) (present : Nat → Bool) (im : Image) (r : ParsedRow) : Prop :=
  ∀ i, i < E.length → present i = true → r.row.getD i none = im.value i

/-! ## The loop -/

section Loop

variable {parseRow : List UInt8 → Exec (Except ParseStatus (ParsedRow × List UInt8))} {last : Nat}
  {data : List UInt8} {records records' : List ParsedRow}

/-- The rows that the loop comes to, up to the end of the event. -/
inductive RowsOf (parseRow : List UInt8 → Exec (Except ParseStatus (ParsedRow × List UInt8)))
    (last : Nat) : List UInt8 → List ParsedRow → Prop where
  | done {data : List UInt8} : ¬ last < data.length → RowsOf parseRow last data []
  | next {data data' : List UInt8} {record : ParsedRow} {records : List ParsedRow} :
      last < data.length → parseRow data = .ok (.ok (record, data')) → last ≤ data'.length →
      RowsOf parseRow last data' records → RowsOf parseRow last data (record :: records)

theorem RowsOf.unique (h : RowsOf parseRow last data records)
    (h' : RowsOf parseRow last data records') : records = records' := by
  induction h generalizing records' with
  | done hend =>
    cases h' with
    | done _ => rfl
    | next hmore _ _ _ => exact absurd hmore hend
  | next hmore hrow _ _ ih =>
    cases h' with
    | done hend => exact absurd hmore hend
    | next _ hrow' _ hrest =>
      rw [hrow] at hrow'
      cases hrow'
      rw [ih hrest]

/-- When the loop over the rows ends well, and with which records. -/
theorem parseRows_eq_ok (hne : ∀ data, parseRow data ≠ .ok (.error .OK)) (places : Nat) :
    parseRows parseRow last places data = .ok (.OK, records) ↔
      RowsOf parseRow last data records ∧ records.length ≤ places := by
  induction places generalizing data records with
  | zero =>
    constructor
    · intro h
      by_cases hmore : last < data.length
      · simp only [parseRows, hmore, if_true] at h
        obtain ⟨parsed, hparse, h⟩ := Exec.of_bind h
        cases parsed with
        | error status =>
          cases h
          exact absurd hparse (hne data)
        | ok parsed => cases h
      · simp only [parseRows, hmore, if_false] at h
        cases h
        exact ⟨.done hmore, le_rfl⟩
    · rintro ⟨h, hlength⟩
      cases h with
      | done hend => simp [parseRows, hend]
      | next _ _ _ _ => simp at hlength
  | succ places ih =>
    constructor
    · intro h
      by_cases hmore : last < data.length
      · simp only [parseRows, hmore, if_true] at h
        obtain ⟨parsed, hparse, h⟩ := Exec.of_bind h
        cases parsed with
        | error status =>
          cases h
          exact absurd hparse (hne data)
        | ok parsed =>
          obtain ⟨record, data'⟩ := parsed
          by_cases hover : data'.length < last
          · simp [hover] at h
          · simp only [hover, if_false] at h
            obtain ⟨⟨status, others⟩, hothers, h⟩ := Exec.of_bind h
            cases h
            obtain ⟨hrest, hlength⟩ := ih.mp hothers
            exact ⟨.next hmore hparse (by omega) hrest, by simpa using hlength⟩
      · simp only [parseRows, hmore, if_false] at h
        cases h
        exact ⟨.done hmore, Nat.zero_le _⟩
    · rintro ⟨h, hlength⟩
      cases h with
      | done hend => simp [parseRows, hend]
      | next hmore hrow hwithin hrest =>
        have hothers := ih.mpr ⟨hrest, by simpa using hlength⟩
        simp [parseRows, hmore, hrow, not_lt.mpr hwithin, hothers]

end Loop

/-! ## The header -/

section Header

@[simp] theorem advance_cons (b : UInt8) (l : List UInt8) : advance 1 (b :: l) = .ok l := by
  simp [advance]

theorem net_field_length_netLength {n : Nat} (h : n < 2 ^ 32) (rest : List UInt8) :
    net_field_length (netLength n ++ rest) = .ok (n, rest) := by
  unfold netLength
  split_ifs with h₁ h₂ h₃
  · have hbyte : LE.bytes 1 n ++ rest = UInt8.ofNat n :: rest := rfl
    have hn : n % 256 = n := Nat.mod_eq_of_lt (by omega)
    simp [net_field_length, hbyte, tableAt, hn, h₁]
  · have hword : ukorr 2 (LE.bytes 2 n ++ rest) = .ok n := ukorr_bytes (by omega) rest
    have hskip : advance 2 (LE.bytes 2 n ++ rest) = .ok rest := advance_append (by simp) rest
    simp [net_field_length, tableAt, hword, hskip]
  · have hword : ukorr 3 (LE.bytes 3 n ++ rest) = .ok n := ukorr_bytes (by omega) rest
    have hskip : advance 3 (LE.bytes 3 n ++ rest) = .ok rest := advance_append (by simp) rest
    simp [net_field_length, tableAt, hword, hskip]
  · -- the length is of 8 bytes, of which the parser reads 4
    have hskip : advance 8 (LE.bytes 8 n ++ rest) = .ok rest := advance_append (by simp) rest
    have hword : ukorr 4 (LE.bytes 8 n ++ rest) = .ok n := by
      exact ukorr_bytes (by omega) _
    simp [net_field_length, tableAt, hword, hskip]

variable {p : BinlogEventParser} {m : Meta.TableMeta} {E : List ColumnEncoding} {ev : RowsEvent}

theorem RowsEvent.length_head (ev : RowsEvent) (size : Nat) :
    (ev.head size).length = 19 + ev.headRest.length := by
  simp [RowsEvent.head]
  omega

theorem RowsEvent.tableAt_type (ev : RowsEvent) (size : Nat) (rest : List UInt8) :
    tableAt (ev.head size ++ rest) EVENT_TYPE_OFFSET = .ok ev.type := by
  simp [RowsEvent.head, tableAt, EVENT_TYPE_OFFSET]

theorem RowsEvent.isUpdate_type (ev : RowsEvent) :
    (ev.type = UPDATE_ROWS_EVENT ∨ ev.type = UPDATE_ROWS_EVENT_V1) ↔ ev.body.isUpdate = true := by
  cases hev : ev.body <;> cases hv1 : ev.v1 <;>
    simp [RowsEvent.type, RowsBody.eventType, RowsBody.isUpdate, hev, hv1, UPDATE_ROWS_EVENT,
      UPDATE_ROWS_EVENT_V1, WRITE_ROWS_EVENT, WRITE_ROWS_EVENT_V1, DELETE_ROWS_EVENT,
      DELETE_ROWS_EVENT_V1]

theorem RowsEvent.eventOffset_bytes (h : ev.eventOffset < 2 ^ 32) (size : Nat) (rest : List UInt8) :
    DATA_SOURCE.eventOffset (ev.head size ++ rest) = ev.eventOffset := by
  have hslice : (ev.head size ++ rest).slice LOG_POS_OFFSET 4 = LE.bytes 4 ev.eventOffset := by
    have hfront : (LE.bytes 4 ev.timestamp ++ ev.type :: LE.bytes 4 ev.serverId ++
        LE.bytes 4 size).length = LOG_POS_OFFSET := by simp [LOG_POS_OFFSET]
    rw [RowsEvent.head, List.append_assoc, List.append_assoc, List.append_assoc,
      ← Nat.add_zero LOG_POS_OFFSET, List.slice_append_right_of_eq _ 0 4 hfront, List.slice,
      List.drop_zero, List.take_left' (LE.length_bytes 4 _)]
  rw [DATA_SOURCE.eventOffset, korr, hslice, LE.nat_bytes_of_lt h]

theorem RowsEvent.varHeaderLen_bytes (h : ev.extra.length + 2 < 2 ^ 16) (rest : List UInt8) :
    varHeaderLen ev.postHeaderLen (ev.extraBytes ++ rest) =
      .ok (if ev.postHeaderLen = ROWS_HEADER_LEN_V2 then ev.extra.length else 0) := by
  by_cases hv2 : ev.postHeaderLen = ROWS_HEADER_LEN_V2
  · have hword : ukorr 2 (LE.bytes 2 (ev.extra.length + 2) ++ (ev.extra ++ rest)) =
        .ok (ev.extra.length + 2) := ukorr_bytes (by omega) _
    simp [varHeaderLen, hv2, RowsEvent.extraBytes, hword]
  · simp [varHeaderLen, hv2]

theorem RowsEvent.length_postHeader
    (h : ev.postHeaderLen = 6 ∨ ev.postHeaderLen = 8 ∨ ev.postHeaderLen = ROWS_HEADER_LEN_V2) :
    ev.postHeader.length = ev.postHeaderLen.toNat +
      if ev.postHeaderLen = ROWS_HEADER_LEN_V2 then ev.extra.length else 0 := by
  rcases h with h | h | h
  · simp [RowsEvent.postHeader, RowsEvent.idWidth, RowsEvent.extraBytes, h, ROWS_HEADER_LEN_V2]
  · simp [RowsEvent.postHeader, RowsEvent.idWidth, RowsEvent.extraBytes, h, ROWS_HEADER_LEN_V2]
  · simp [RowsEvent.postHeader, RowsEvent.idWidth, RowsEvent.extraBytes, h, ROWS_HEADER_LEN_V2]
    omega

/-- What the header of an event is found to be. -/
def RowsEvent.header (ev : RowsEvent) (E : List ColumnEncoding) (tail : List UInt8) :
    RowsHeader where
  tableId := ev.tableId
  columnBitMap := ev.columns ++ (ev.body.updatedColumns ++ (ev.body.bytes E ++ tail))
  updatedColumnBitMap :=
    match ev.body with
    | .update updated rows => some (updated ++ (RowsBody.bytes E (.update updated rows) ++ tail))
    | _ => none
  rows := ev.body.bytes E ++ tail

/-- The head of an event is read back. -/
theorem parseRowLogEventHeader_bytes (h : ev.Of E p m) (size : Nat) (tail : List UInt8) :
    p.parseRowLogEventHeader (ev.head size ++ (ev.postHeader ++ (netLength E.length ++
      (ev.columns ++ (ev.body.updatedColumns ++ (ev.body.bytes E ++ tail)))))) =
      .ok (ev.header E tail) := by
  have hpost : tableAt p.m_descEvent.post_header_len (ev.type.toNat - 1) =
      .ok ev.postHeaderLen := by
    simp [tableAt, h.postHeader]
  have hcommon := h.commonHeader.trans (ev.length_head size).symm
  have hid : ∀ rest, ukorr ev.idWidth (ev.postHeader ++ rest) = .ok ev.tableId := fun rest => by
    rw [RowsEvent.postHeader, List.append_assoc, List.append_assoc]
    exact ukorr_bytes h.tableId_lt _
  have hskip : ∀ rest, advance (ev.idWidth + 2) (ev.postHeader ++ rest) =
      .ok (ev.extraBytes ++ rest) := fun rest => by
    rw [RowsEvent.postHeader, List.append_assoc]
    exact advance_append (by simp) _
  have hstart : ∀ rest, advance (p.m_descEvent.common_header_len.toNat + ev.postHeaderLen.toNat +
      (if ev.postHeaderLen = ROWS_HEADER_LEN_V2 then ev.extra.length else 0))
        (ev.head size ++ (ev.postHeader ++ rest)) = .ok rest := fun rest => by
    rw [← List.append_assoc]
    exact advance_append (by
      rw [List.length_append, RowsEvent.length_postHeader h.postHeaderLen, hcommon]
      omega) rest
  have hbitmap : (E.length + 7) % 2 ^ 64 / 8 = (E.length + 7) / 8 := by
    rw [Nat.mod_eq_of_lt (by have := h.columnCount.2; omega)]
  have hcolumns : ∀ rest, advance ((E.length + 7) % 2 ^ 64 / 8) (ev.columns ++ rest) = .ok rest :=
    advance_append (hbitmap.trans h.columns.symm)
  have hwidth : (if ev.postHeaderLen = 6 then 4 else 6) = ev.idWidth := rfl
  simp only [BinlogEventParser.parseRowLogEventHeader, RowsEvent.tableAt_type, Exec.ok_bind, hpost,
    advance_append hcommon, hwidth, hid, hskip, RowsEvent.varHeaderLen_bytes h.extra, hstart,
    net_field_length_netLength h.columnCount.2, hcolumns, RowsEvent.header]
  have hbody := h.body
  have htype := ev.isUpdate_type
  cases hev : ev.body with
  | write rows =>
    rw [if_neg (by simp [htype, hev, RowsBody.isUpdate])]
    rfl
  | delete rows =>
    rw [if_neg (by simp [htype, hev, RowsBody.isUpdate])]
    rfl
  | update updated rows =>
    rw [hev] at hbody
    have hupdated : ∀ rest, advance ((E.length + 7) % 2 ^ 64 / 8) (updated ++ rest) = .ok rest :=
      advance_append (hbitmap.trans hbody.1.symm)
    rw [if_pos (by simp [htype, hev, RowsBody.isUpdate])]
    simp only [RowsBody.updatedColumns, hupdated, Exec.ok_bind, Exec.pure_eq]

/-- What stands in the loop for an event of this kind. -/
def RowsBody.parseRow (p : BinlogEventParser) (body : RowsBody) :
    ParsedRow → RowsHeader → List UInt8 → Exec (Except ParseStatus (ParsedRow × List UInt8)) :=
  if body.isUpdate then p.parseTwoImages else p.parseOneImage

/-- The parser of an event is the loop over its rows. -/
theorem parser_bytes (h : ev.Of E p m) (behind : List UInt8) :
    p.parser (ev.bytes E ++ behind) (ev.size E) = do
      return some (← parseRows
        (ev.body.parseRow p (p.newRecord (ev.bytes E ++ behind) m ev.body.recordType)
          (ev.header E (ev.checksum ++ behind)))
        (ev.checksum ++ behind).length M_PARSER_RECORD_CACHE_VOLUMN
        (ev.body.bytes E ++ (ev.checksum ++ behind))) := by
  have hbytes : ev.bytes E ++ behind = ev.head (ev.size E) ++ (ev.postHeader ++
      (netLength E.length ++ (ev.columns ++ (ev.body.updatedColumns ++
        (ev.body.bytes E ++ (ev.checksum ++ behind)))))) := by
    simp [RowsEvent.bytes, RowsEvent.content]
  have hheader := parseRowLogEventHeader_bytes h (ev.size E) (ev.checksum ++ behind)
  have hlast : (ev.bytes E ++ behind).length - (ev.size E - p.checksumLen) =
      (ev.checksum ++ behind).length := by
    have hsize : (ev.bytes E).length = ev.size E := by
      rw [RowsEvent.bytes, List.length_append, ev.length_head, RowsEvent.size]
    have hchecksum : ev.checksum.length ≤ ev.size E := by
      simp only [RowsEvent.size, RowsEvent.content, List.length_append]
      omega
    have hlen := h.checksum
    simp only [List.length_append, hsize]
    omega
  have hevent : ∀ type parseRow, p.parseRowsEvent type parseRow (ev.bytes E ++ behind) (ev.size E) =
      parseRows (parseRow (p.newRecord (ev.bytes E ++ behind) m type)
        (ev.header E (ev.checksum ++ behind))) (ev.checksum ++ behind).length
        M_PARSER_RECORD_CACHE_VOLUMN (ev.body.bytes E ++ (ev.checksum ++ behind)) := by
    intro type parseRow
    simp only [BinlogEventParser.parseRowsEvent, hlast]
    simp only [hbytes, hheader, Exec.ok_bind, RowsEvent.eventOffset_bytes h.eventOffset, h.lookup,
      h.table.count, ne_eq, not_true, if_false]
    rw [if_neg (by simp [RowsEvent.header, h.tableId])]
    rfl
  have htype : tableAt (ev.bytes E ++ behind) EVENT_TYPE_OFFSET = .ok ev.type := by
    rw [hbytes]
    exact ev.tableAt_type _ _
  simp only [BinlogEventParser.parser, htype, Exec.ok_bind, BinlogEventParser.parseRowLogevent,
    BinlogEventParser.parseUpdateRowLogevent, hevent]
  cases hev : ev.body <;> cases hv1 : ev.v1 <;>
    simp [RowsEvent.type, RowsBody.eventType, RowsBody.parseRow, RowsBody.isUpdate,
      RowsBody.recordType, hev, hv1, UPDATE_ROWS_EVENT, UPDATE_ROWS_EVENT_V1, WRITE_ROWS_EVENT,
      WRITE_ROWS_EVENT_V1, DELETE_ROWS_EVENT, DELETE_ROWS_EVENT_V1]

end Header

/-! ## Rows of one image -/

section OneImage

variable {p : BinlogEventParser} {m : Meta.TableMeta} {E : List ColumnEncoding} {present : Nat → Bool}
  {record r : ParsedRow} {header : RowsHeader} {data rest tail : List UInt8} {rows : List Image}
  {records : List ParsedRow} {last : Nat}

theorem parseRowData_ne_OK {columnBitmap : List UInt8} :
    p.parseRowData m columnBitmap data ≠ .ok (.error .OK) := by
  intro h
  obtain ⟨values, -, h⟩ := Exec.of_bind h
  exact parseColumns_ne_OK h

private theorem parseOneImage_ne_OK : p.parseOneImage record header data ≠ .ok (.error .OK) := by
  intro h
  obtain ⟨parsed, hparse, h⟩ := Exec.of_bind h
  cases parsed with
  | error status =>
    cases h
    exact parseRowData_ne_OK hparse
  | ok parsed => cases h

theorem parseOneImage_eq_ok :
    p.parseOneImage record header data = .ok (.ok (r, rest)) ↔
      ∃ row, p.parseRowData record.meta' header.columnBitMap data = .ok (.ok (row, rest)) ∧
        r = { record with row := row } := by
  constructor
  · intro h
    obtain ⟨parsed, hparse, h⟩ := Exec.of_bind h
    cases parsed with
    | error status => cases h
    | ok parsed =>
      obtain ⟨row, rest'⟩ := parsed
      cases h
      exact ⟨row, hparse, rfl⟩
  · rintro ⟨row, hparse, rfl⟩
    simp [BinlogEventParser.parseOneImage, hparse]

/-- The bitmaps of columns that the parser has, of a table with these columns. -/
structure Bitmap (E : List ColumnEncoding) (present : Nat → Bool) (columnBitmap : List UInt8) :
    Prop where
  room : E.length ≤ 8 * columnBitmap.length
  bits : ∀ i, i < E.length → bit columnBitmap i = present i

theorem bitmap_append {columns : List UInt8} (h : columns.length = (E.length + 7) / 8)
    (rest : List UInt8) : Bitmap E (bit columns) (columns ++ rest) where
  room := by
    rw [List.length_append]
    omega
  bits := fun i hi => bit_append (by omega) rest

theorem Image.bytes_ne_nil {im : Image} (h : im.Of E present) (hread : im.Readable E present)
    (hcount : 1 ≤ E.length) : 0 < (im.bytes E).length := by
  have hnulls := h.length_nulls
  rw [← hread.1] at hnulls
  rw [Image.bytes, List.length_append]
  omega

theorem rowsOf_images (hm : TableMatches p record.meta' E) (hcount : 1 ≤ E.length)
    (hbitmap : Bitmap E present header.columnBitMap) (hof : ∀ im ∈ rows, im.Of E present)
    (hread : ∀ im ∈ rows, im.Readable E present) :
    RowsOf (p.parseOneImage record header) tail.length (rows.flatMap (fun im => im.bytes E) ++ tail)
      (rows.map fun im => { record with row := im.row }) := by
  induction rows with
  | nil => exact .done (by simp)
  | cons im rows ih =>
    rw [List.forall_mem_cons] at hof hread
    have hbytes := im.bytes_ne_nil hof.1 hread.1 hcount
    have hparse := hof.1.parse hm hbitmap.room hbitmap.bits hread.1
      (rows.flatMap (fun im => im.bytes E) ++ tail)
    rw [List.flatMap_cons, List.append_assoc]
    refine .next ?_ (parseOneImage_eq_ok.mpr ⟨im.row, hparse, rfl⟩) ?_ (ih hof.2 hread.2)
    · rw [List.length_append, List.length_append]
      omega
    · rw [List.length_append]
      omega

theorem RowsOf.length_images (h : RowsOf (p.parseOneImage record header) last data records)
    (hm : TableMatches p record.meta' E) (hbitmap : Bitmap E present header.columnBitMap)
    (hof : ∀ im ∈ rows, im.Of E present)
    (hshown : List.Forall₂ (fun im r => ShowsNew E present im r) rows records)
    (hlast : last ≤ data.length) :
    data.length =
      (rows.map fun im => (E.length + 7) / 8 + (encodeRow E im.row).length).sum + last := by
  induction h generalizing rows with
  | done hend =>
    cases hshown
    simp only [List.map_nil, List.sum_nil]
    omega
  | @next data data' r records hmore hrow hwithin hrest ih =>
    obtain _ | @⟨im, _, rows, _, hvalues, hshown⟩ := hshown
    rw [List.forall_mem_cons] at hof
    obtain ⟨row, hparse, rfl⟩ := parseOneImage_eq_ok.mp hrow
    have hdata := hof.1.parse_length hm hbitmap.bits hparse hvalues
    have hdata' := ih hof.2 hshown hwithin
    rw [List.map_cons, List.sum_cons]
    omega

theorem RowsOf.width_images
    (h : RowsOf (p.parseOneImage record header) tail.length
      (rows.flatMap (fun im => im.bytes E) ++ tail) records)
    (hm : TableMatches p record.meta' E) (hbitmap : Bitmap E present header.columnBitMap)
    (hof : ∀ im ∈ rows, im.Of E present)
    (hshown : List.Forall₂ (fun im r => ShowsNew E present im r) rows records) (hrows : rows ≠ []) :
    (E.length + 7) / 8 = (rank present E.length + 7) / 8 := by
  have hlength := h.length_images hm hbitmap hof hshown (by rw [List.length_append]; omega)
  have hbytes : (rows.flatMap fun im => im.bytes E).length =
      (rows.map fun im => (rank present E.length + 7) / 8 + (encodeRow E im.row).length).sum := by
    rw [List.length_flatMap]
    congr 1
    apply List.map_congr_left
    intro im him
    rw [Image.bytes, List.length_append, (hof im him).length_nulls]
  rw [List.length_append, hbytes] at hlength
  simp only [List.sum_map_add, List.map_const', List.sum_replicate_nat] at hlength
  have hpos : 0 < rows.length := List.length_pos_of_ne_nil hrows
  exact (Nat.eq_of_mul_eq_mul_left hpos (by omega)).symm

theorem RowsOf.readable_images
    (h : RowsOf (p.parseOneImage record header) tail.length
      (rows.flatMap (fun im => im.bytes E) ++ tail) records)
    (hm : TableMatches p record.meta' E) (hbitmap : Bitmap E present header.columnBitMap)
    (hwidth : (E.length + 7) / 8 = (rank present E.length + 7) / 8)
    (hof : ∀ im ∈ rows, im.Of E present)
    (hshown : List.Forall₂ (fun im r => ShowsNew E present im r) rows records) :
    ∀ im ∈ rows, im.Readable E present := by
  induction rows generalizing records with
  | nil => simp
  | cons im rows ih =>
    obtain _ | @⟨_, r, _, records, hvalues, hshown⟩ := hshown
    rw [List.forall_mem_cons] at hof ⊢
    rw [List.flatMap_cons, List.append_assoc] at h
    cases h with
    | next hmore hrow hwithin hrest =>
      obtain ⟨row, hparse, rfl⟩ := parseOneImage_eq_ok.mp hrow
      obtain ⟨hread, hdata⟩ := hof.1.readable_of_parse hm hbitmap.bits hwidth hparse hvalues
      rw [hdata] at hrest
      exact ⟨hread, ih hrest hof.2 hshown⟩

end OneImage

/-! ## Rows of an update -/

section TwoImages

variable {p : BinlogEventParser} {m : Meta.TableMeta} {E : List ColumnEncoding}
  {before after : Nat → Bool} {record : ParsedRow} {header : RowsHeader} {data tail : List UInt8}
  {rows : List (Image × Image)}

private theorem parseTwoImages_ne_OK : p.parseTwoImages record header data ≠ .ok (.error .OK) := by
  intro h
  obtain ⟨parsed, hparse, h⟩ := Exec.of_bind h
  cases parsed with
  | error status =>
    cases h
    exact parseRowData_ne_OK hparse
  | ok parsed =>
    obtain ⟨updated, -, h⟩ := Exec.of_bind h
    obtain ⟨olds, hparse', h⟩ := Exec.of_bind h
    cases olds with
    | error status =>
      cases h
      exact parseRowData_ne_OK hparse'
    | ok olds => cases h

/-- The record of a readable row of an update: the image before the update is in the new values. -/
def updateRecord (record : ParsedRow) (im : Image × Image) : ParsedRow :=
  { record with row := im.1.row, olds := some (im.2.row.map BinlogEventParser.oldColumn) }

theorem rowsOf_updates (record : ParsedRow) (tail : List UInt8)
    (hm : TableMatches p record.meta' E) (hcount : 1 ≤ E.length) {updated : List UInt8}
    (hheader : header.updatedColumnBitMap = some updated)
    (hbefore : Bitmap E before header.columnBitMap) (hafter : Bitmap E after updated)
    (hof : ∀ im ∈ rows, im.1.Of E before ∧ im.2.Of E after)
    (hread : ∀ im ∈ rows, im.1.Readable E before ∧ im.2.Readable E after) :
    RowsOf (p.parseTwoImages record header) tail.length
      (rows.flatMap (fun im => im.1.bytes E ++ im.2.bytes E) ++ tail)
      (rows.map (updateRecord record)) := by
  induction rows with
  | nil => exact .done (by simp)
  | cons im rows ih =>
    rw [List.forall_mem_cons] at hof hread
    have hbytes := im.1.bytes_ne_nil hof.1.1 hread.1.1 hcount
    have hfirst := hof.1.1.parse hm hbefore.room hbefore.bits hread.1.1
      (im.2.bytes E ++ (rows.flatMap (fun im => im.1.bytes E ++ im.2.bytes E) ++ tail))
    have hsecond := hof.1.2.parse hm hafter.room hafter.bits hread.1.2
      (rows.flatMap (fun im => im.1.bytes E ++ im.2.bytes E) ++ tail)
    have hrow : p.parseTwoImages record header (im.1.bytes E ++ (im.2.bytes E ++ (rows.flatMap
        (fun im => im.1.bytes E ++ im.2.bytes E) ++ tail))) =
        .ok (.ok (updateRecord record im, rows.flatMap
          (fun im => im.1.bytes E ++ im.2.bytes E) ++ tail)) := by
      simp [BinlogEventParser.parseTwoImages, hfirst, hheader, hsecond, updateRecord]
    rw [List.flatMap_cons, List.append_assoc, List.append_assoc]
    refine .next ?_ hrow ?_ (ih hof.2 hread.2)
    · simp only [List.length_append]
      omega
    · simp only [List.length_append]
      omega

end TwoImages

/-! ## The records of an event -/

section Event

variable {p : BinlogEventParser} {m : Meta.TableMeta} {E : List ColumnEncoding} {ev : RowsEvent}

theorem parseRow_ne_OK (body : RowsBody) (record : ParsedRow) (header : RowsHeader)
    (data : List UInt8) : body.parseRow p record header data ≠ .ok (.error .OK) := by
  unfold RowsBody.parseRow
  split_ifs
  · exact parseTwoImages_ne_OK
  · exact parseOneImage_ne_OK

/-- The records that are made of readable rows, from one without values. -/
def RowsBody.records (record : ParsedRow) : RowsBody → List ParsedRow
  | write rows => rows.map fun im => { record with row := im.row }
  | delete rows => rows.map fun im => { record with row := im.row }
  | update _ rows => rows.map (updateRecord record)

theorem rowsOf_records (h : ev.Of E p m) (behind : List UInt8)
    (hread : ev.body.Readable E ev.columns) :
    RowsOf (ev.body.parseRow p (p.newRecord (ev.bytes E ++ behind) m ev.body.recordType)
      (ev.header E (ev.checksum ++ behind))) (ev.checksum ++ behind).length
      (ev.body.bytes E ++ (ev.checksum ++ behind))
      (ev.body.records (p.newRecord (ev.bytes E ++ behind) m ev.body.recordType)) := by
  have hbody := h.body
  have hbitmap := bitmap_append h.columns (ev.body.updatedColumns ++
    (ev.body.bytes E ++ (ev.checksum ++ behind)))
  cases hev : ev.body with
  | write rows =>
    rw [hev] at hbody hread
    exact rowsOf_images h.table h.columnCount.1 hbitmap hbody hread
  | delete rows =>
    rw [hev] at hbody hread
    exact rowsOf_images h.table h.columnCount.1 hbitmap hbody hread
  | update updated rows =>
    rw [hev] at hbody hread
    have hheader : (ev.header E (ev.checksum ++ behind)).updatedColumnBitMap =
        some (updated ++ (ev.body.bytes E ++ (ev.checksum ++ behind))) := by
      simp only [RowsEvent.header, hev]
    exact rowsOf_updates _ _ h.table h.columnCount.1 hheader hbitmap (bitmap_append hbody.1 _)
      hbody.2 hread

variable {columns : List UInt8} {rows : List Image}

theorem rowsOf_images_iff (type : RecordType) (record : ParsedRow) (header : RowsHeader)
    (tail : List UInt8) (htype : record.type = type)
    (hm : TableMatches p record.meta' E) (hcount : 1 ≤ E.length)
    (hbitmap : Bitmap E (bit columns) header.columnBitMap)
    (hof : ∀ im ∈ rows, im.Of E (bit columns)) :
    (∃ records, RowsOf (p.parseOneImage record header) tail.length
        (rows.flatMap (fun im => im.bytes E) ++ tail) records ∧
      records.length ≤ M_PARSER_RECORD_CACHE_VOLUMN ∧
      List.Forall₂ (fun im r => r.type = type ∧ ShowsNew E (bit columns) im r) rows records) ↔
    (∀ im ∈ rows, im.Readable E (bit columns)) ∧ rows.length ≤ M_PARSER_RECORD_CACHE_VOLUMN := by
  constructor
  · rintro ⟨records, hrows, hplaces, hshown⟩
    rw [← hshown.length_eq] at hplaces
    have hvalues := hshown.imp fun im r h => h.2
    by_cases hnil : rows = []
    · simp [hnil]
    · have hwidth := hrows.width_images hm hbitmap hof hvalues hnil
      exact ⟨hrows.readable_images hm hbitmap hwidth hof hvalues, hplaces⟩
  · rintro ⟨hread, hplaces⟩
    refine ⟨_, rowsOf_images hm hcount hbitmap hof hread, by simpa using hplaces, ?_⟩
    rw [List.forall₂_map_right_iff, List.forall₂_same]
    intro im _
    exact ⟨htype, fun i _ _ => rfl⟩

end Event

/-! ## Tables of small integers -/

def parse_TINY : ParseFunc := fun _ data =>
  match data with
  | [] => .error .outOfBounds
  | v :: data => .ok (some ([v], data))

def tinyEncoding : ColumnEncoding where
  encode := id
  Valid := fun v => v.length = 1

private theorem reads_tiny (columnMeta : ColumnMeta) :
    Reads tinyEncoding (parse_TINY columnMeta) where
  value := by
    intro v hv rest
    obtain ⟨b, rfl⟩ := List.length_eq_one_iff.mp hv
    rfl
  exact := by
    intro data v rest h
    cases data with
    | nil => cases h
    | cons b data =>
      cases h
      rfl

def tinyTable : Meta.TableMeta := TableMeta.buildColumnOffsetList
  { m_columns := [{ m_columnType := .T_INT8, m_columnName := "a", m_srcColumnType := 1 },
      { m_columnType := .T_INT8, m_columnName := "b", m_columnIndex := 1, m_srcColumnType := 1 }] }

def tinyParser : BinlogEventParser where
  m_metaDataManager := fun _ _ _ => some tinyTable
  m_descEvent :=
    { post_header_len := [56, 13, 0, 8, 0, 18, 0, 4, 4, 4, 4, 18, 0, 0, 95, 0, 4, 26, 8, 0, 0, 0, 8,
        8, 8, 2, 0, 0, 0, 10, 10, 10, 42, 42, 0]
      common_header_len := 19, alg := BINLOG_CHECKSUM_ALG_OFF }
  m_currentFileID := 1
  m_tableMap :=
    { tableID := 108, dbName := "db", tableName := "t", types := [1, 1], metaInfo := [] }
  parseFunc := fun _ => parse_TINY

def tinyEncodings : List ColumnEncoding := [tinyEncoding, tinyEncoding]

theorem tableMatches_tiny : TableMatches tinyParser tinyTable tinyEncodings := by
  have hreads : ∀ ctype columnMeta, Reads tinyEncoding (tinyParser.parseFunc ctype columnMeta) :=
    fun _ columnMeta => reads_tiny columnMeta
  constructor
  · rfl
  · apply Parsable.cons rfl (by decide) (hreads _ _)
    exact Parsable.cons rfl (by decide) (hreads _ _) (.nil _)

end DBStream.Native.DATA_SOURCE
