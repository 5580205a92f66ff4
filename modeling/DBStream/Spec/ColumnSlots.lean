import DBStream.Native.ColumnParser
import DBStream.Spec.DMLOldValues
import DBStream.Spec.TimeOrder

/-!
# Columns and their slots

The values of columns without a fraction, as they are encoded and as they have to be in the record,
and which of them the parsers set in the slot of the column.
-/

namespace DBStream.Native.DATA_SOURCE

open JsonColumn Meta DMLRecord

/-! ## Slots -/

/-- The call that sets a column in the storage of its type. -/
def slotCall (colMeta : ColumnMeta) (newOrOld : Bool) (stored : List UInt8) : SetCall :=
  if colMeta.m_columnType.info.fixed then setFixed newOrOld colMeta.m_columnIndex stored
  else setVar newOrOld colMeta.m_columnIndex stored

/-- In a record with the new values of the columns before it, the call adds the value. -/
def AddsNew (call : SetCall) (colMeta : ColumnMeta) (stored : List UInt8) : Prop :=
  ∀ {m : Meta.TableMeta} {type : RecordType} {row : List (Option (List UInt8))} {mem : RawMemory}
    {ts₁ ts₂ : List Meta.ColumnType} (id : Nat),
    Built m → fixedSize m.types < 2 ^ 16 → m.types = ts₁ ++ colMeta.m_columnType :: ts₂ →
    ts₁.length = colMeta.m_columnIndex → RowFits ts₁ row →
    imageEnd m.types (cells ts₁ row ++ [cellOf colMeta.m_columnType (some stored)]) < 2 ^ 32 →
    NewImage m type row mem →
    ∃ mem', call.run (recordIn m id mem) = .ok (recordIn m id mem') ∧
      NewImage m type (row ++ [some stored]) mem'

/-- In a record of an update with the old values of the columns before it, the call adds the old
    value. -/
def AddsOld (call : SetCall) (colMeta : ColumnMeta) (stored : List UInt8) : Prop :=
  ∀ {m : Meta.TableMeta} {type : RecordType} {row : List (Option (List UInt8))} {E : Nat}
    {mem : RawMemory} {ts₁ : List Meta.ColumnType} {olds : List OldColumn} (id : Nat),
    OldNext m row E ts₁ colMeta.m_columnType olds → ts₁.length = colMeta.m_columnIndex →
    imageEnd m.types
      (oldCells E ts₁ olds ++ [oldCellOf E colMeta.m_columnType (.value stored)]) < 2 ^ 32 →
    OldImage m type row E olds mem →
    ∃ mem', call.run (recordOld m id E mem) = .ok (recordOld m id E mem') ∧
      OldImage m type row E (olds ++ [.value stored]) mem'

/-- The value is stored in its slot in the image that is asked for, and what is behind it is
    left. -/
structure Stores (parser : Option ColumnParser) (colMeta : ColumnMeta)
    (encoded stored : List UInt8) (newOrOld : Bool) (rest : List UInt8) : Prop where
  parsed : parser.map (· colMeta (encoded ++ rest) newOrOld) =
    some (.ok (some (slotCall colMeta newOrOld stored, rest)))
  size : ValueFits colMeta.m_columnType (some stored)
  new : newOrOld = true → AddsNew (slotCall colMeta newOrOld stored) colMeta stored
  old : newOrOld = false → AddsOld (slotCall colMeta newOrOld stored) colMeta stored

variable {colMeta : ColumnMeta} {newOrOld : Bool} {encoded stored rest : List UInt8}

theorem addsNew_slotCall (hsize : ValueFits colMeta.m_columnType (some stored)) :
    AddsNew (slotCall colMeta true stored) colMeta stored := by
  intro m type row mem ts₁ ts₂ id hbuilt hfixedSize hsplit hindex hrow hend himage
  have hlen : ts₁.length = row.length := hrow.length_eq
  have hspec : ∃ mem', (recordIn m id mem).setColumn row.length (some stored) =
      .ok (recordIn m id mem') ∧ NewImage m type (row ++ [some stored]) mem' :=
    setColumn_spec hbuilt hfixedSize hsplit hrow hsize hend himage
  obtain ⟨mem', hset, hnew⟩ := hspec
  refine ⟨mem', ?_, hnew⟩
  have htype : (recordIn m id mem).columnType row.length = .ok colMeta.m_columnType := by
    rw [← hlen]
    exact columnType_of_split _ hsplit
  rw [setColumn, htype, Exec.ok_bind] at hset
  rw [slotCall, ← hindex, hlen]
  cases hfixed : colMeta.m_columnType.info.fixed with
  | true =>
    rw [hfixed] at hset
    exact hset
  | false =>
    rw [hfixed] at hset
    exact hset

theorem addsOld_slotCall (hsize : ValueFits colMeta.m_columnType (some stored)) :
    AddsOld (slotCall colMeta false stored) colMeta stored := by
  intro m type row E mem ts₁ olds id hnext hindex hend himage
  have hlen : ts₁.length = olds.length := hnext.oldsFit.length_eq
  have hspec : ∃ mem', (recordOld m id E mem).setOldColumn olds.length (.value stored) =
      .ok (recordOld m id E mem') ∧ OldImage m type row E (olds ++ [.value stored]) mem' :=
    setOldColumn_spec hnext hsize hend himage
  obtain ⟨mem', hset, hold⟩ := hspec
  refine ⟨mem', ?_, hold⟩
  have htype : (recordOld m id E mem).columnType olds.length = .ok colMeta.m_columnType := by
    obtain ⟨ts₂, hsplit⟩ := hnext.split
    rw [← hlen]
    exact columnType_of_split _ hsplit
  rw [setOldColumn, htype, Exec.ok_bind] at hset
  rw [slotCall, ← hindex, hlen]
  cases hfixed : colMeta.m_columnType.info.fixed with
  | true =>
    rw [hfixed] at hset
    exact hset
  | false =>
    rw [hfixed] at hset
    exact hset

theorem valueFits_of_length {t : Meta.ColumnType} (h : stored.length = t.info.columnTypeSize) :
    ValueFits t (some stored) := by
  intro v hv _
  rw [← Option.some.inj hv, h]

variable {parser : ColumnParser}

theorem stores_of_parsed
    (hsize : ValueFits colMeta.m_columnType (some stored))
    (h : parser colMeta (encoded ++ rest) newOrOld =
      .ok (some (slotCall colMeta newOrOld stored, rest))) :
    Stores (some parser) colMeta encoded stored newOrOld rest := by
  constructor
  · rw [Option.map_some, h]
  · exact hsize
  · rintro rfl
    exact addsNew_slotCall hsize
  · rintro rfl
    exact addsOld_slotCall hsize

/-! ## Encoded values -/

def word (w : Nat) (v : Int) : List UInt8 := LE.bytes w (v % 2 ^ (8 * w)).toNat

def InRange (isSigned : Bool) (w : Nat) (v : Int) : Prop :=
  if isSigned then -2 ^ (8 * w - 1) ≤ v ∧ v < 2 ^ (8 * w - 1) else 0 ≤ v ∧ v < 2 ^ (8 * w)

/-- An integer type: its bytes in an event and in a record, and what its columns are declared as. -/
structure IntegerType where
  type : Nat
  encodedSize : Nat
  storedSize : Nat
  columnTypes : List Meta.ColumnType
  deriving DecidableEq

def integerTypes : List IntegerType :=
  [⟨MYSQL_TYPE_TINY, 1, 1, [.T_UINT8, .T_INT8]⟩, ⟨MYSQL_TYPE_SHORT, 2, 2, [.T_UINT16, .T_INT16]⟩,
    ⟨MYSQL_TYPE_INT24, 3, 4, [.T_UINT32, .T_INT32]⟩, ⟨MYSQL_TYPE_LONG, 4, 4, [.T_UINT32, .T_INT32]⟩,
    ⟨MYSQL_TYPE_LONGLONG, 8, 8, [.T_UINT64, .T_INT64]⟩]

def blobTypes : List (Nat × Nat) :=
  [(MYSQL_TYPE_TINY_BLOB, 1), (MYSQL_TYPE_BLOB, 2), (MYSQL_TYPE_MEDIUM_BLOB, 3),
    (MYSQL_TYPE_LONG_BLOB, 4)]

/-- The bytes of the length of a string of at most `size` bytes. -/
def lengthSize (size : Nat) : Nat := if size < 256 then 1 else 2

/-- The bytes of a set of `count` members, of which there are no five, six or seven. -/
def setSize (count : Nat) : Nat := if 32 < count then 8 else (count + 7) / 8

/-- The values of the types: the bytes of a value in a row event, and its bytes in a record. -/
inductive Encodes : Nat → ColumnMeta → List UInt8 → List UInt8 → Prop
  | integer {i : IntegerType} {colMeta : ColumnMeta} {v : Int} :
      i ∈ integerTypes → colMeta.m_columnType ∈ i.columnTypes →
      InRange colMeta.m_signed i.encodedSize v →
      Encodes i.type colMeta (word i.encodedSize v) (word i.storedSize v)
  | year {colMeta : ColumnMeta} {year : Nat} :
      colMeta.m_columnType = .T_YEAR → year = 0 ∨ 1901 ≤ year ∧ year ≤ 2155 →
      Encodes MYSQL_TYPE_YEAR colMeta (LE.bytes 1 (year - 1900)) (LE.bytes 2 year)
  | date {colMeta : ColumnMeta} {year month day : Nat} {date : Date} :
      colMeta.m_columnType = .T_DATE → year ≤ 9999 → month ≤ 12 → day ≤ 31 →
      date.fields = ⟨year, month, day⟩ →
      Encodes MYSQL_TYPE_NEWDATE colMeta (LE.bytes 3 (year * 512 + month * 32 + day))
        (LE.bytes 4 date.time.toNat)
  | bit {colMeta : ColumnMeta} {v : Nat} :
      colMeta.m_columnType = .T_BYTE → 1 ≤ colMeta.m_size → colMeta.m_size ≤ 64 →
      v < 2 ^ colMeta.m_size →
      Encodes MYSQL_TYPE_BIT colMeta (BE.bytes ((colMeta.m_size + 7) / 8) v) (LE.bytes 8 v)
  | enum {colMeta : ColumnMeta} {i : Nat} :
      colMeta.m_columnType = .T_ENUM → i ≤ colMeta.m_setAndEnumValueList.length → i < 2 ^ 16 →
      Encodes MYSQL_TYPE_ENUM colMeta
        (LE.bytes (lengthSize colMeta.m_setAndEnumValueList.length) i) (LE.bytes 2 i)
  | set {colMeta : ColumnMeta} {v : Nat} :
      colMeta.m_columnType = .T_SET → 1 ≤ colMeta.m_setAndEnumValueList.length →
      colMeta.m_setAndEnumValueList.length ≤ 64 →
      v < 2 ^ colMeta.m_setAndEnumValueList.length →
      Encodes MYSQL_TYPE_SET colMeta
        (LE.bytes (setSize colMeta.m_setAndEnumValueList.length) v) (LE.bytes 8 v)
  | string {type : Nat} {colMeta : ColumnMeta} {text : List UInt8} :
      type ∈ [MYSQL_TYPE_STRING, MYSQL_TYPE_VARCHAR, MYSQL_TYPE_VAR_STRING] →
      colMeta.m_columnType ∈ [.T_STRING, .T_BINARY] → colMeta.m_size < 2 ^ 16 →
      text.length ≤ colMeta.m_size →
      Encodes type colMeta (LE.bytes (lengthSize colMeta.m_size) text.length ++ text) text
  | blob {type : Nat} {colMeta : ColumnMeta} {w : Nat} {text : List UInt8} :
      type ∈ blobTypes.map Prod.fst → (colMeta.m_srcColumnType, w) ∈ blobTypes →
      colMeta.m_columnType ∈ [.T_BLOB, .T_TEXT] → text.length < 256 ^ w →
      Encodes type colMeta (LE.bytes w text.length ++ text) text
  | geometry {colMeta : ColumnMeta} {text : List UInt8} :
      colMeta.m_columnType = .T_GEOMETRY → text.length < 256 ^ 4 →
      Encodes MYSQL_TYPE_GEOMETRY colMeta (LE.bytes 4 text.length ++ text) text

/-- Which values their parser stores: no index of an enumeration and nothing that is of variable
    length but declared with a fixed one, a set only in the new image, a year with a byte 0 behind it,
    a string unless its length may be 255, and the bits of eight bytes that are the same number from
    both ends. -/
def Exact (type : Nat) (colMeta : ColumnMeta) (encoded : List UInt8) (newOrOld : Bool)
    (rest : List UInt8) : Prop :=
  if type = MYSQL_TYPE_YEAR then encoded ≠ [0] ∧ rest.head? = some 0
  else if type = MYSQL_TYPE_BIT then
    57 ≤ colMeta.m_size ∧ LE.nat encoded / 2 ^ (64 - colMeta.m_size) = BE.nat encoded
  else if type = MYSQL_TYPE_ENUM ∨ type = MYSQL_TYPE_GEOMETRY then False
  else if type = MYSQL_TYPE_SET then newOrOld = true
  else if type = MYSQL_TYPE_STRING then colMeta.m_size ≠ 255
  else if type ∈ blobTypes.map Prod.fst then colMeta.m_columnType = .T_TEXT
  else True

/-! ## Reading -/

theorem Stores.eq
    (h : Stores (some parser) colMeta encoded stored newOrOld rest) :
    parser colMeta (encoded ++ rest) newOrOld =
      .ok (some (slotCall colMeta newOrOld stored, rest)) :=
  Option.some.inj h.parsed

theorem slotCall_fixed (h : colMeta.m_columnType.info.fixed = true) :
    slotCall colMeta newOrOld stored = setFixed newOrOld colMeta.m_columnIndex stored := if_pos h

private theorem slotCall_var (h : colMeta.m_columnType.info.fixed = false) :
    slotCall colMeta newOrOld stored = setVar newOrOld colMeta.m_columnIndex stored :=
  if_neg (by simp [h])

theorem setFixed_inj {id : Nat} {value value' : List UInt8}
    (h : setFixed newOrOld id value = setFixed newOrOld id value') : value = value' := by
  cases newOrOld with
  | true => exact SetCall.setFixedColumn.inj h |>.2
  | false => exact SetCall.setFixedUpdatedColumn.inj h |>.2

private theorem setFixed_ne_setVar {id : Nat} {value value' : List UInt8} :
    setFixed newOrOld id value ≠ setVar newOrOld id value' := by
  cases newOrOld <;> simp [setFixed, setVar]

theorem bytes_inj {w n n' : Nat} (hn : n < 256 ^ w) (hn' : n' < 256 ^ w)
    (h : LE.bytes w n = LE.bytes w n') : n = n' := by
  rw [← LE.nat_bytes_of_lt hn, h, LE.nat_bytes_of_lt hn']

/-! ## Integers -/

theorem parseInteger_append {w : Nat} {bs : List UInt8} (h : bs.length = w) (rest : List UInt8) :
    parseInteger w colMeta (bs ++ rest) newOrOld =
      .ok (some (setFixed newOrOld colMeta.m_columnIndex bs, rest)) := by
  have hbytes : LE.bytes w (LE.nat bs) = bs := by
    rw [← h]
    exact LE.bytes_nat bs
  simp only [parseInteger, ukorr_append h.symm, advance_append h.symm, Exec.ok_bind, hbytes]
  rfl

@[simp] theorem length_word (w : Nat) (v : Int) : (word w v).length = w := LE.length_bytes _ _

theorem parse_INT24_append {v : Int} (h : InRange colMeta.m_signed 3 v) (rest : List UInt8) :
    parse_MYSQL_TYPE_INT24 colMeta (word 3 v ++ rest) newOrOld =
      .ok (some (setFixed newOrOld colMeta.m_columnIndex (word 4 v), rest)) := by
  have hread : ukorr 3 (word 3 v ++ rest) = .ok (v % 2 ^ 24).toNat := ukorr_bytes (by omega) rest
  have hadvance := advance_append (length_word 3 v).symm rest
  unfold InRange at h
  have hvalue : (if colMeta.m_signed then sint3korr (word 3 v ++ rest)
      else ukorr 3 (word 3 v ++ rest)) = .ok (v % 2 ^ 32).toNat := by
    by_cases hsigned : colMeta.m_signed = true
    · rw [if_pos hsigned] at h ⊢
      have hsign : signed 3 (v % 2 ^ 24).toNat = v := by
        unfold signed
        split <;> omega
      rw [sint3korr, hread, Exec.ok_bind, hsign]
      rfl
    · rw [if_neg hsigned] at h ⊢
      have hsame : (v % 2 ^ 24).toNat = (v % 2 ^ 32).toNat := by omega
      rw [hread, hsame]
  have hparse : parse_MYSQL_TYPE_INT24 colMeta (word 3 v ++ rest) newOrOld =
      (if colMeta.m_signed then sint3korr (word 3 v ++ rest) else ukorr 3 (word 3 v ++ rest)) >>=
        fun value => advance 3 (word 3 v ++ rest) >>= fun data =>
          .ok (some (setFixed newOrOld colMeta.m_columnIndex (LE.bytes 4 value), data)) := by
    unfold parse_MYSQL_TYPE_INT24
    split <;> rfl
  rw [hparse, hvalue, hadvance]
  rfl

theorem stores_integer {i : IntegerType} {v : Int} (hi : i ∈ integerTypes)
    (htype : colMeta.m_columnType ∈ i.columnTypes)
    (hv : InRange colMeta.m_signed i.encodedSize v) (junk : BitVec 64) :
    Stores (parseFunc junk i.type) colMeta (word i.encodedSize v) (word i.storedSize v) newOrOld
      rest := by
  have hinfo : colMeta.m_columnType.info.fixed = true ∧
      colMeta.m_columnType.info.columnTypeSize = i.storedSize := by
    have hall : ∀ i ∈ integerTypes, ∀ t ∈ i.columnTypes,
        t.info.fixed = true ∧ t.info.columnTypeSize = i.storedSize := by decide
    exact hall i hi _ htype
  have hsize : ValueFits colMeta.m_columnType (some (word i.storedSize v)) :=
    valueFits_of_length (by rw [length_word, hinfo.2])
  have hparser : ∃ parser, parseFunc junk i.type = some parser ∧
      parser colMeta (word i.encodedSize v ++ rest) newOrOld =
        .ok (some (setFixed newOrOld colMeta.m_columnIndex (word i.storedSize v), rest)) := by
    simp only [integerTypes, List.mem_cons, List.not_mem_nil, or_false] at hi
    obtain rfl | rfl | rfl | rfl | rfl := hi
    · exact ⟨_, rfl, parseInteger_append (length_word 1 v) rest⟩
    · exact ⟨_, rfl, parseInteger_append (length_word 2 v) rest⟩
    · exact ⟨_, rfl, parse_INT24_append hv rest⟩
    · exact ⟨_, rfl, parseInteger_append (length_word 4 v) rest⟩
    · exact ⟨_, rfl, parseInteger_append (length_word 8 v) rest⟩
  obtain ⟨parser, hparser, hparsed⟩ := hparser
  rw [hparser]
  refine stores_of_parsed hsize ?_
  rw [hparsed, slotCall_fixed hinfo.1]

/-! ## Years and dates -/

/-- The parser of a year writes two bytes, where the column has one. -/
theorem stores_year_iff {year : Nat} (htype : colMeta.m_columnType = .T_YEAR)
    (hyear : year = 0 ∨ 1901 ≤ year ∧ year ≤ 2155) :
    Stores (some parse_MYSQL_TYPE_YEAR) colMeta (LE.bytes 1 (year - 1900)) (LE.bytes 2 year)
      newOrOld rest ↔ LE.bytes 1 (year - 1900) ≠ [0] ∧ rest.head? = some 0 := by
  have hfixed : colMeta.m_columnType.info.fixed = true := by rw [htype]; rfl
  have hadvance := advance_append (LE.length_bytes 1 (year - 1900)).symm rest
  have hzero : LE.bytes 1 (year - 1900) ≠ [0] ↔ year ≠ 0 := by
    constructor
    · rintro h rfl
      exact h rfl
    · intro hne h
      have hnat : year - 1900 = 0 := by
        rw [← LE.nat_bytes_of_lt (show year - 1900 < 256 ^ 1 by omega), h]
        rfl
      omega
  have hsize : ValueFits colMeta.m_columnType (some (LE.bytes 2 year)) :=
    valueFits_of_length (by rw [LE.length_bytes, htype]; rfl)
  rw [hzero]
  cases rest with
  | nil =>
    -- there is no second byte to read
    refine ⟨fun h => ?_, fun h => by simp at h⟩
    have heq := h.eq
    cases heq
  | cons b rest =>
    have hread : ukorr 2 (LE.bytes 1 (year - 1900) ++ b :: rest) =
        .ok (year - 1900 + 256 * b.toNat) := by
      have hsplit : LE.bytes 1 (year - 1900) ++ b :: rest =
          (LE.bytes 1 (year - 1900) ++ [b]) ++ rest := by simp
      have hbyte : (UInt8.ofNat (year - 1900)).toNat = year - 1900 := by
        rw [UInt8.toNat_ofNat']
        omega
      rw [hsplit, ukorr_append (by simp)]
      simp [LE.bytes, LE.nat_cons, hbyte]
    have hparsed : parse_MYSQL_TYPE_YEAR colMeta (LE.bytes 1 (year - 1900) ++ b :: rest) newOrOld =
        .ok (some (setFixed newOrOld colMeta.m_columnIndex
          (LE.bytes 2 (1900 + (year - 1900 + 256 * b.toNat))), b :: rest)) := by
      simp only [parse_MYSQL_TYPE_YEAR, hread, hadvance, Exec.ok_bind]
      rfl
    have hb := b.toNat_lt
    rw [List.head?_cons, Option.some_inj, ← UInt8.toNat_inj, UInt8.toNat_zero]
    constructor
    · intro h
      have heq := h.eq
      rw [hparsed, slotCall_fixed hfixed] at heq
      have hvalue := congrArg LE.nat (setFixed_inj (Prod.mk.inj (Option.some.inj
        (Except.ok.inj heq))).1)
      rw [LE.nat_bytes, LE.nat_bytes] at hvalue
      omega
    · rintro ⟨hyear', hb⟩
      refine stores_of_parsed hsize ?_
      rw [hparsed, slotCall_fixed hfixed, hb, show 1900 + (year - 1900 + 256 * 0) = year by omega]

theorem stores_date {year month day : Nat} {date : Date} (htype : colMeta.m_columnType = .T_DATE)
    (hyear : year ≤ 9999) (hmonth : month ≤ 12) (hday : day ≤ 31)
    (hdate : date.fields = ⟨year, month, day⟩) (junk : BitVec 32) :
    Stores (some (parse_MYSQL_TYPE_NEWDATE junk)) colMeta
      (LE.bytes 3 (year * 512 + month * 32 + day)) (LE.bytes 4 date.time.toNat) newOrOld rest := by
  have hfixed : colMeta.m_columnType.info.fixed = true := by rw [htype]; rfl
  have hread := ukorr_bytes (show year * 512 + month * 32 + day < 256 ^ 3 by omega) rest
  have hadvance := advance_append
    (LE.length_bytes 3 (year * 512 + month * 32 + day)).symm rest
  have hset := Date.fields_set ⟨junk⟩ ⟨year, month, day⟩
    ⟨⟨show (-2 ^ 22 : Int) ≤ year by omega, show (year : Int) < 2 ^ 22 by omega⟩,
      show month < 2 ^ 4 by omega, show day < 2 ^ 5 by omega⟩
  -- the word is determined by its fields
  have hsame : Date.set ⟨junk⟩ year month day = date := Date.eq_of_fields (hset.trans hdate.symm)
  have hy : (year * 512 + month * 32 + day) / 2 ^ 9 = year := by omega
  have hm : (year * 512 + month * 32 + day) / 2 ^ 5 % 2 ^ 4 = month := by omega
  have hd : (year * 512 + month * 32 + day) % 2 ^ 5 = day := by omega
  refine stores_of_parsed ?_ ?_
  · exact valueFits_of_length (by rw [LE.length_bytes, htype]; rfl)
  · simp only [parse_MYSQL_TYPE_NEWDATE, hread, hadvance, Exec.ok_bind, hy, hm, hd, hsame,
      slotCall_fixed hfixed]
    rfl

/-! ## Strings -/

variable {text : List UInt8}

private theorem parseText_append {w : Nat} (h : text.length < 256 ^ w)
    (rest : List UInt8) :
    parseText w colMeta (LE.bytes w text.length ++ text ++ rest) newOrOld =
      .ok (some (setVar newOrOld colMeta.m_columnIndex text, rest)) := by
  rw [List.append_assoc]
  simp only [parseText, ukorr_bytes h, advance_append (LE.length_bytes w text.length).symm,
    advance_append (rfl : text.length = text.length), Exec.ok_bind, List.take_left]
  rfl

theorem valueFits_var {t : Meta.ColumnType} (h : t.info.fixed = false) :
    ValueFits t (some stored) := by
  intro v _ hfixed
  rw [h] at hfixed
  cases hfixed

theorem stores_text_iff {w : Nat}
    (hparser : parser colMeta (LE.bytes w text.length ++ text ++ rest) newOrOld =
      parseText w colMeta (LE.bytes w text.length ++ text ++ rest) newOrOld)
    (h : text.length < 256 ^ w) :
    Stores (some parser) colMeta (LE.bytes w text.length ++ text) text newOrOld rest ↔
      colMeta.m_columnType.info.fixed = false := by
  rw [parseText_append h] at hparser
  constructor
  · intro hs
    have heq := hs.eq
    rw [hparser] at heq
    have hcall := (Prod.mk.inj (Option.some.inj (Except.ok.inj heq))).1
    cases hfixed : colMeta.m_columnType.info.fixed with
    | false => rfl
    | true =>
      rw [slotCall_fixed hfixed] at hcall
      exact absurd hcall.symm setFixed_ne_setVar
  · intro hvar
    refine stores_of_parsed (valueFits_var hvar) ?_
    rw [hparser, slotCall_var hvar]

theorem not_stores_shortText (h : text.length < 256)
    (hparser : parser colMeta (LE.bytes 1 text.length ++ text ++ rest) newOrOld =
      parseText 2 colMeta (LE.bytes 1 text.length ++ text ++ rest) newOrOld) :
    ¬Stores (some parser) colMeta (LE.bytes 1 text.length ++ text) text newOrOld rest := by
  intro hs
  have heq := hs.eq
  have hbytes : LE.bytes 1 text.length = [UInt8.ofNat text.length] := rfl
  have hbyte : (UInt8.ofNat text.length).toNat = text.length := by
    rw [UInt8.toNat_ofNat']
    omega
  rw [hparser, hbytes, List.singleton_append, List.cons_append] at heq
  -- the length has a second byte, of the text or of what is behind it
  cases hdata : text ++ rest with
  | nil =>
    rw [hdata] at heq
    cases heq
  | cons b tail =>
    rw [hdata] at heq
    have hread : ukorr 2 (UInt8.ofNat text.length :: b :: tail) =
        .ok (text.length + 256 * b.toNat) := by
      rw [ukorr, if_pos (by simp)]
      simp [LE.nat_cons, hbyte]
    have htext : advance 2 (UInt8.ofNat text.length :: b :: tail) = .ok tail := by
      rfl
    have hlength := congrArg List.length hdata
    rw [List.length_append, List.length_cons] at hlength
    rw [parseText, hread, Exec.ok_bind, htext, Exec.ok_bind] at heq
    by_cases hroom : text.length + 256 * b.toNat ≤ tail.length
    · rw [advance, if_pos hroom, Exec.ok_bind] at heq
      have hrest := congrArg List.length (Prod.mk.inj (Option.some.inj (Except.ok.inj heq))).2
      rw [List.length_drop] at hrest
      omega
    · rw [advance, if_neg hroom] at heq
      cases heq

theorem lengthSize_lt {size n : Nat} (hsize : size < 2 ^ 16) (hn : n ≤ size) :
    n < 256 ^ lengthSize size := by
  unfold lengthSize
  split <;> omega

theorem stores_char_iff (hsize : colMeta.m_size < 2 ^ 16)
    (hvar : colMeta.m_columnType.info.fixed = false) (htext : text.length ≤ colMeta.m_size) :
    Stores (some parse_MYSQL_TYPE_STRING) colMeta
      (LE.bytes (lengthSize colMeta.m_size) text.length ++ text) text newOrOld rest ↔
        colMeta.m_size ≠ 255 := by
  have hlt := lengthSize_lt hsize htext
  by_cases h255 : colMeta.m_size = 255
  · have hone : lengthSize colMeta.m_size = 1 := by rw [h255]; rfl
    rw [hone]
    refine iff_of_false (not_stores_shortText (by omega) ?_) (not_not.mpr h255)
    rw [parse_MYSQL_TYPE_STRING, if_pos (by omega)]
  · refine iff_of_true ((stores_text_iff ?_ hlt).mpr hvar) h255
    unfold parse_MYSQL_TYPE_STRING lengthSize
    by_cases hlong : 0xff ≤ colMeta.m_size
    · rw [if_pos hlong, if_neg (by omega)]
    · rw [if_neg hlong, if_pos (by omega)]

theorem stores_varchar (hsize : colMeta.m_size < 2 ^ 16)
    (hvar : colMeta.m_columnType.info.fixed = false) (htext : text.length ≤ colMeta.m_size) :
    Stores (some parse_MYSQL_TYPE_VAR_STRING) colMeta
      (LE.bytes (lengthSize colMeta.m_size) text.length ++ text) text newOrOld rest := by
  refine (stores_text_iff ?_ (lengthSize_lt hsize htext)).mpr hvar
  unfold parse_MYSQL_TYPE_VAR_STRING lengthSize
  split <;> rfl

/-! ## Blobs -/

theorem stores_blob_iff {w : Nat}
    (hsrc : (colMeta.m_srcColumnType, w) ∈ blobTypes) (h : text.length < 256 ^ w) :
    Stores (some parse_MYSQL_TYPE_BLOB) colMeta (LE.bytes w text.length ++ text) text newOrOld rest ↔
      colMeta.m_columnType.info.fixed = false := by
  refine stores_text_iff ?_ h
  simp only [blobTypes, List.mem_cons, List.not_mem_nil, or_false, Prod.mk.injEq] at hsrc
  unfold parse_MYSQL_TYPE_BLOB
  obtain ⟨hsrc, rfl⟩ | ⟨hsrc, rfl⟩ | ⟨hsrc, rfl⟩ | ⟨hsrc, rfl⟩ := hsrc <;> rw [hsrc] <;> rfl

/-! ## Bits, sets and enumerations -/

theorem parse_BIT_append {k : Nat} (hk : colMeta.m_size + k = 64) (hsize : 1 ≤ colMeta.m_size)
    (hlength : encoded.length = (colMeta.m_size + 7) / 8) (junk : BitVec 64) :
    parse_MYSQL_TYPE_BIT junk colMeta (encoded ++ rest) newOrOld =
      .ok (some (setFixed newOrOld colMeta.m_columnIndex
        (LE.bytes 8 ((LE.nat encoded +
          junk.toNat / 256 ^ encoded.length * 256 ^ encoded.length) / 2 ^ k)), rest)) := by
  have hbytes : (colMeta.m_size + 7) / 8 % 256 = encoded.length := by omega
  have hread := ukorr_append (rfl : encoded.length = encoded.length) rest
  have hadvance := advance_append (rfl : encoded.length = encoded.length) rest
  have hshift : 64 - colMeta.m_size = k := by omega
  simp only [parse_MYSQL_TYPE_BIT, hbytes, hread, hadvance, hshift, Exec.ok_bind]
  rfl

theorem stores_fixed_iff {value : List UInt8}
    (hparsed : parser colMeta (encoded ++ rest) newOrOld =
      .ok (some (setFixed newOrOld colMeta.m_columnIndex value, rest)))
    (hfixed : colMeta.m_columnType.info.fixed = true)
    (hsize : stored.length = colMeta.m_columnType.info.columnTypeSize) :
    Stores (some parser) colMeta encoded stored newOrOld rest ↔ value = stored := by
  constructor
  · intro h
    have heq := h.eq
    rw [hparsed, slotCall_fixed hfixed] at heq
    exact setFixed_inj (Prod.mk.inj (Option.some.inj (Except.ok.inj heq))).1
  · rintro rfl
    refine stores_of_parsed (valueFits_of_length hsize) ?_
    rw [hparsed, slotCall_fixed hfixed]

theorem bitValue_lt {b n junk : Nat} (hb : b ≤ 8) (hn : n < 256 ^ b) (hjunk : junk < 2 ^ 64) :
    n + junk / 256 ^ b * 256 ^ b < 256 ^ 8 := by
  have hpow : 256 ^ 8 = 256 ^ (8 - b) * 256 ^ b := by
    rw [← Nat.pow_add, Nat.sub_add_cancel hb]
  have hq : junk / 256 ^ b < 256 ^ (8 - b) := by
    rw [Nat.div_lt_iff_lt_mul (Nat.pow_pos (by omega)), ← hpow]
    exact hjunk
  have hle : (junk / 256 ^ b + 1) * 256 ^ b ≤ 256 ^ (8 - b) * 256 ^ b := Nat.mul_le_mul_right _ hq
  rw [Nat.add_mul, Nat.one_mul] at hle
  omega

theorem stores_bit_iff_value {k v : Nat} (htype : colMeta.m_columnType = .T_BYTE)
    (hk : colMeta.m_size + k = 64) (hsize : 1 ≤ colMeta.m_size)
    (hlength : encoded.length = (colMeta.m_size + 7) / 8) (hv : v < 2 ^ colMeta.m_size)
    (junk : BitVec 64) :
    Stores (some (parse_MYSQL_TYPE_BIT junk)) colMeta encoded (LE.bytes 8 v) newOrOld rest ↔
      (LE.nat encoded + junk.toNat / 256 ^ encoded.length * 256 ^ encoded.length) / 2 ^ k = v := by
  have hv' : v < 256 ^ 8 :=
    Nat.lt_of_lt_of_le hv (Nat.pow_le_pow_right (by omega) (by omega : colMeta.m_size ≤ 64))
  have hlt := bitValue_lt (by omega) (LE.nat_lt encoded) junk.isLt
  have hdiv := Nat.lt_of_le_of_lt (Nat.div_le_self _ (2 ^ k)) hlt
  rw [stores_fixed_iff (parse_BIT_append hk hsize hlength junk) (by rw [htype]; rfl)
    (by rw [LE.length_bytes, htype]; rfl)]
  exact ⟨bytes_inj hdiv hv', fun h => by rw [h]⟩

theorem stores_bit_iff {v : Nat} (htype : colMeta.m_columnType = .T_BYTE)
    (hsize : 1 ≤ colMeta.m_size) (hsize' : colMeta.m_size ≤ 64) (hv : v < 2 ^ colMeta.m_size) :
    (∀ junk, Stores (some (parse_MYSQL_TYPE_BIT junk)) colMeta
      (BE.bytes ((colMeta.m_size + 7) / 8) v) (LE.bytes 8 v) newOrOld rest) ↔
        57 ≤ colMeta.m_size ∧ LE.nat (BE.bytes ((colMeta.m_size + 7) / 8) v) /
          2 ^ (64 - colMeta.m_size) = BE.nat (BE.bytes ((colMeta.m_size + 7) / 8) v) := by
  have hk : colMeta.m_size + (64 - colMeta.m_size) = 64 := by omega
  have hlength := BE.length_bytes ((colMeta.m_size + 7) / 8) v
  have hbe : BE.nat (BE.bytes ((colMeta.m_size + 7) / 8) v) = v := by
    refine BE.nat_bytes_of_lt (Nat.lt_of_lt_of_le hv ?_)
    rw [show (256 : Nat) = 2 ^ 8 from rfl, ← Nat.pow_mul]
    exact Nat.pow_le_pow_right (by omega) (by omega)
  rw [hbe]
  generalize BE.bytes ((colMeta.m_size + 7) / 8) v = encoded at hlength
  simp only [stores_bit_iff_value htype hk hsize hlength hv]
  by_cases h57 : 57 ≤ colMeta.m_size
  · -- all eight bytes are the value's
    have h8 : encoded.length = 8 := by omega
    have hnone (junk : BitVec 64) : junk.toNat / 256 ^ encoded.length = 0 := by
      rw [h8]
      exact Nat.div_eq_of_lt junk.isLt
    simp [hnone, h57]
  · -- the highest byte is not
    refine iff_of_false (fun h => ?_) (fun h => h57 h.1)
    have hzero : LE.nat encoded / 2 ^ (64 - colMeta.m_size) = v := by simpa using h 0
    have htop := h (BitVec.ofNat 64 (2 ^ 63))
    have hpow : 2 ^ 63 / 256 ^ encoded.length * 256 ^ encoded.length = 2 ^ 63 := by
      refine Nat.div_mul_cancel ?_
      rw [show (256 : Nat) = 2 ^ 8 from rfl, ← Nat.pow_mul]
      exact Nat.pow_dvd_pow 2 (by omega)
    have hsplit : 2 ^ 63 = 2 ^ (colMeta.m_size - 1) * 2 ^ (64 - colMeta.m_size) := by
      rw [← Nat.pow_add]
      congr 1
      omega
    have htoNat : (BitVec.ofNat 64 (2 ^ 63)).toNat = 2 ^ 63 := by decide
    rw [htoNat, hpow, hsplit, Nat.add_mul_div_right _ _ (Nat.pow_pos (by omega))] at htop
    have hpos : 0 < 2 ^ (colMeta.m_size - 1) := Nat.pow_pos (by omega)
    omega

theorem stores_set_iff {v : Nat} (htype : colMeta.m_columnType = .T_SET)
    (hcount : 1 ≤ colMeta.m_setAndEnumValueList.length)
    (hcount' : colMeta.m_setAndEnumValueList.length ≤ 64)
    (hv : v < 2 ^ colMeta.m_setAndEnumValueList.length) :
    Stores (some parse_MYSQL_TYPE_SET) colMeta
      (LE.bytes (setSize colMeta.m_setAndEnumValueList.length) v) (LE.bytes 8 v) newOrOld rest ↔
        newOrOld = true := by
  have hfixed : colMeta.m_columnType.info.fixed = true := by rw [htype]; rfl
  have hbytes : v < 256 ^ setSize colMeta.m_setAndEnumValueList.length := by
    refine Nat.lt_of_lt_of_le hv ?_
    rw [show (256 : Nat) = 2 ^ 8 from rfl, ← Nat.pow_mul]
    refine Nat.pow_le_pow_right (by omega) ?_
    unfold setSize
    split <;> omega
  have hread := ukorr_bytes hbytes rest
  have hadvance := advance_append
    (LE.length_bytes (setSize colMeta.m_setAndEnumValueList.length) v).symm rest
  unfold setSize at hread hadvance
  have hparsed : parse_MYSQL_TYPE_SET colMeta
      (LE.bytes (setSize colMeta.m_setAndEnumValueList.length) v ++ rest) newOrOld =
        .ok (some (.setFixedColumn colMeta.m_columnIndex (LE.bytes 8 v), rest)) := by
    simp only [parse_MYSQL_TYPE_SET, setSize, if_pos (show 0 < _ from hcount), hread, hadvance,
      Exec.ok_bind]
    rfl
  constructor
  · intro h
    have heq := h.eq
    rw [hparsed, slotCall_fixed hfixed] at heq
    cases newOrOld with
    | true => rfl
    | false => cases heq
  · rintro rfl
    refine stores_of_parsed (valueFits_of_length (by rw [LE.length_bytes, htype]; rfl)) ?_
    rw [hparsed, slotCall_fixed hfixed]
    rfl

theorem not_stores_enum {i : Nat} (htype : colMeta.m_columnType = .T_ENUM) :
    ¬Stores (some parse_MYSQL_TYPE_ENUM) colMeta encoded (LE.bytes 2 i) newOrOld rest := by
  intro h
  have hfixed : colMeta.m_columnType.info.fixed = true := by rw [htype]; rfl
  have heq := h.eq
  rw [slotCall_fixed hfixed] at heq
  have hfour {value : Nat} {data : List UInt8} {r : Exec (List UInt8)}
      (hcall : (r >>= fun data => Except.ok (some
        (setFixed newOrOld colMeta.m_columnIndex (LE.bytes 4 value), data))) =
          Except.ok (some (setFixed newOrOld colMeta.m_columnIndex (LE.bytes 2 i), data))) :
      False := by
    cases r with
    | error e => cases hcall
    | ok rest =>
      have hbytes := setFixed_inj (Prod.mk.inj (Option.some.inj (Except.ok.inj hcall))).1
      have hlength := congrArg List.length hbytes
      rw [LE.length_bytes, LE.length_bytes] at hlength
      omega
  unfold parse_MYSQL_TYPE_ENUM at heq
  split at heq
  · cases hread : ukorr 2 (encoded ++ rest) with
    | error e =>
      rw [hread] at heq
      cases heq
    | ok n =>
      rw [hread] at heq
      exact hfour heq
  · cases hread : ukorr 1 (encoded ++ rest) with
    | error e =>
      rw [hread] at heq
      cases heq
    | ok n =>
      rw [hread] at heq
      exact hfour heq

/-! ## All types -/

/-- A column is given the value its type is to hold, in its own bytes and no others, and just the
    bytes of the value are read, if and only if `Exact` says so. -/
theorem parseFunc_stores_iff {type : Nat} (h : Encodes type colMeta encoded stored)
    (newOrOld : Bool) (rest : List UInt8) :
    (∀ junk, Stores (parseFunc junk type) colMeta encoded stored newOrOld rest) ↔
      Exact type colMeta encoded newOrOld rest := by
  cases h with
  | integer hi htype hv =>
    refine iff_of_true (fun junk => stores_integer hi htype hv junk) ?_
    have hall : ∀ i ∈ integerTypes, i.type ≠ MYSQL_TYPE_YEAR ∧ i.type ≠ MYSQL_TYPE_BIT ∧
        i.type ≠ MYSQL_TYPE_ENUM ∧ i.type ≠ MYSQL_TYPE_GEOMETRY ∧ i.type ≠ MYSQL_TYPE_SET ∧
        i.type ≠ MYSQL_TYPE_STRING ∧ i.type ∉ blobTypes.map Prod.fst := by decide
    obtain ⟨hyear, hbit, henum, hgeometry, hset, hstring, hblob⟩ := hall _ hi
    rw [Exact, if_neg hyear, if_neg hbit, if_neg (not_or.mpr ⟨henum, hgeometry⟩), if_neg hset,
      if_neg hstring, if_neg hblob]
    trivial
  | year htype hyear =>
    exact (forall_const (BitVec 64)).trans (stores_year_iff htype hyear)
  | date htype hyear hmonth hday hdate =>
    refine iff_of_true (fun junk => stores_date htype hyear hmonth hday hdate _) ?_
    trivial
  | bit htype hsize hsize' hv => exact stores_bit_iff htype hsize hsize' hv
  | enum htype _ _ =>
    exact iff_of_false (fun h => not_stores_enum htype (h 0)) id
  | set htype hcount hcount' hv =>
    exact (forall_const (BitVec 64)).trans (stores_set_iff htype hcount hcount' hv)
  | string htype hcolumn hsize htext =>
    have hvar : colMeta.m_columnType.info.fixed = false := by
      have hall : ∀ t ∈ [Meta.ColumnType.T_STRING, Meta.ColumnType.T_BINARY], t.info.fixed = false := by decide
      exact hall _ hcolumn
    simp only [List.mem_cons, List.not_mem_nil, or_false] at htype
    obtain rfl | rfl | rfl := htype
    · exact (forall_const (BitVec 64)).trans (stores_char_iff hsize hvar htext)
    · exact iff_of_true (fun _ => stores_varchar hsize hvar htext) trivial
    · exact iff_of_true (fun _ => stores_varchar hsize hvar htext) trivial
  | blob htype hsrc hcolumn htext =>
    have hstorage : colMeta.m_columnType.info.fixed = false ↔ colMeta.m_columnType = .T_TEXT := by
      have hall : ∀ t ∈ [Meta.ColumnType.T_BLOB, Meta.ColumnType.T_TEXT],
          t.info.fixed = false ↔ t = .T_TEXT := by decide
      exact hall _ hcolumn
    simp only [blobTypes, List.map_cons, List.map_nil, List.mem_cons, List.not_mem_nil,
      or_false] at htype
    obtain rfl | rfl | rfl | rfl := htype <;>
      exact (forall_const (BitVec 64)).trans ((stores_blob_iff hsrc htext).trans hstorage)
  | geometry htype htext =>
    refine iff_of_false (fun h => ?_) id
    have hvar := (stores_text_iff rfl htext).mp (h 0)
    rw [htype] at hvar
    cases hvar

/-- -1 in three bytes, with a sign. -/
theorem parseFunc_stores_medium :
    Encodes MYSQL_TYPE_INT24 { m_columnType := .T_INT32, m_columnName := "a", m_signed := true }
        [255, 255, 255] [255, 255, 255, 255] ∧
      ((∀ junk, Stores (parseFunc junk MYSQL_TYPE_INT24)
        { m_columnType := .T_INT32, m_columnName := "a", m_signed := true }
        [255, 255, 255] [255, 255, 255, 255] false [7]) ↔
          Exact MYSQL_TYPE_INT24
            { m_columnType := .T_INT32, m_columnName := "a", m_signed := true }
            [255, 255, 255] false [7]) := by
  have h : Encodes MYSQL_TYPE_INT24
      { m_columnType := .T_INT32, m_columnName := "a", m_signed := true }
      [255, 255, 255] [255, 255, 255, 255] :=
    .integer (i := ⟨MYSQL_TYPE_INT24, 3, 4, [.T_UINT32, .T_INT32]⟩) (v := -1) (by decide) (by decide)
      (by simp [InRange])
  exact ⟨h, parseFunc_stores_iff h false [7]⟩

/-- The only value of an enumeration is set with two bytes of what is behind its slot. -/
theorem parseFunc_enum_overruns :
    Encodes MYSQL_TYPE_ENUM
        { m_columnType := .T_ENUM, m_columnName := "a", m_setAndEnumValueList := ["b"] } [1] [1, 0] ∧
      ¬Stores (parseFunc 0 MYSQL_TYPE_ENUM)
        { m_columnType := .T_ENUM, m_columnName := "a", m_setAndEnumValueList := ["b"] } [1] [1, 0]
        true [] ∧
      parse_MYSQL_TYPE_ENUM
        { m_columnType := .T_ENUM, m_columnName := "a", m_setAndEnumValueList := ["b"] } [1] true =
        .ok (some (.setFixedColumn 0 [1, 0, 0, 0], [])) :=
  ⟨.enum (i := 1) rfl (by decide) (by decide), not_stores_enum (i := 1) rfl, rfl⟩

end DBStream.Native.DATA_SOURCE
