import DBStream.Native.RowEventParser
import DBStream.Native.TimeTypes

/-!
# Column values

The parsers of column values in `dataSource/mysqlDataSource/columnParser.cpp`, but for those of
`FLOAT`, `DOUBLE`, `JSON` and of the formats of `TIMESTAMP` and `DATETIME` without a precision.  Of
`NEWDECIMAL` there is what writes the text.

A `const char* data` is the memory from there on; a read that leaves it is a fault.  A parser gives
the call of a setter of the record with the bytes of the value, and the memory behind the value.
-/

namespace DBStream.Native.DATA_SOURCE

open Meta
open JsonColumn (signed gDigitsLut Convert8DigitsSSE2 i32toa_sse2)

/-! ## Big-endian words -/

/-- A word of `w` bytes. -/
def mi_ukorr (w : Nat) (data : List UInt8) : Exec Nat :=
  if w ≤ data.length then .ok (BE.nat (data.take w)) else .error .outOfBounds

/-- A word of `w` bytes with its sign. -/
def mi_skorr (w : Nat) (data : List UInt8) : Exec Int := do
  return signed w (← mi_ukorr w data)

def mi_uint2korr : List UInt8 → Exec Nat := mi_ukorr 2
def mi_uint3korr : List UInt8 → Exec Nat := mi_ukorr 3
def mi_uint4korr : List UInt8 → Exec Nat := mi_ukorr 4
def mi_uint5korr : List UInt8 → Exec Nat := mi_ukorr 5
def mi_uint6korr : List UInt8 → Exec Nat := mi_ukorr 6

def mi_sint1korr : List UInt8 → Exec Int := mi_skorr 1
def mi_sint2korr : List UInt8 → Exec Int := mi_skorr 2
def mi_sint3korr : List UInt8 → Exec Int := mi_skorr 3
def mi_sint4korr : List UInt8 → Exec Int := mi_skorr 4

/-! ## Digits from the right

Of `util/itoaSse.h`: the text ends in front of `dest`. -/

/-- Write a text in front of `dest`, and `tail` from there on.  The length is that of the text
and one more. -/
def putBefore (text tail : List UInt8) (dest : Nat) (m : RawMemory) : Nat × RawMemory :=
  (text.length + 1, m.write (dest - text.length) (text ++ tail))

def u32toa_sse2_b (value dest : Nat) (m : RawMemory) : Nat × RawMemory :=
  if value < 10000 then
    let d1 := value / 100 * 2
    let d2 := value % 100 * 2
    putBefore ((if 1000 ≤ value then [gDigitsLut d1] else []) ++
      (if 100 ≤ value then [gDigitsLut (d1 + 1)] else []) ++
      (if 10 ≤ value then [gDigitsLut d2] else []) ++ [gDigitsLut (d2 + 1)]) [0] dest m
  else if value < 100000000 then
    let b := value / 10000
    let c := value % 10000
    let d1 := b / 100 * 2
    let d2 := b % 100 * 2
    let d3 := c / 100 * 2
    let d4 := c % 100 * 2
    putBefore ((if 10000000 ≤ value then [gDigitsLut d1] else []) ++
      (if 1000000 ≤ value then [gDigitsLut (d1 + 1)] else []) ++
      (if 100000 ≤ value then [gDigitsLut d2] else []) ++
      [gDigitsLut (d2 + 1), gDigitsLut d3, gDigitsLut (d3 + 1), gDigitsLut d4,
        gDigitsLut (d4 + 1)]) [0] dest m
  else
    -- here there is no byte 0 at `dest`
    let a := value / 100000000
    putBefore ((if 10 ≤ a then [gDigitsLut (a * 2), gDigitsLut (a * 2 + 1)]
      else [UInt8.ofNat (0x30 + a)]) ++ Convert8DigitsSSE2 (value % 100000000)) [] dest m

def i32toa_sse2b (value : Int) (dest : Nat) (m : RawMemory) : Nat × RawMemory :=
  if value < 0 then
    let (l, m) := u32toa_sse2_b value.natAbs dest m
    (l + 1, m.write (dest - l) [0x2d])
  else u32toa_sse2_b value.natAbs dest m

/-! ## Decimals -/

def dig2bytes : List Nat := [0, 1, 1, 2, 2, 3, 3, 4, 4, 4]

def digMasks : List (BitVec 32) :=
  [0, 0xff, 0xff, 0xffff, 0xffff, 0xffffff, 0xffffff, 0xffffffff, 0xffffffff, 0xffffffff]

def zeroBuffer : List UInt8 := List.replicate 10 0x30

def getPartNumberFromDecimal (size : Nat) (data : List UInt8) : Exec (BitVec 32) := do
  match size with
  | 1 => return BitVec.ofInt 32 (← mi_sint1korr data)
  | 2 => return BitVec.ofInt 32 (← mi_sint2korr data)
  | 3 => return BitVec.ofInt 32 (← mi_sint3korr data)
  | 4 => return BitVec.ofInt 32 (← mi_sint4korr data)
  | _ => throw .abort

/-- The variables of `parseDecimalToString` that change, with the memory that `pos` is in. -/
structure DecimalText where
  data : List UInt8
  pos : Nat
  mem : RawMemory
  isZero : Bool := true

namespace DecimalText

variable (s : DecimalText)

/-- `*pos++ = c`. -/
def put (c : UInt8) : DecimalText :=
  { s with pos := s.pos + 1, mem := s.mem.write s.pos [c] }

/-- `memcpy(pos, zeroBuffer, n)`. -/
def zeros (n : Nat) : RawMemory := s.mem.write s.pos (zeroBuffer.take n)

/-- `pos += i32toa_sse2(num, pos) - 1`. -/
def putNumber (num : BitVec 32) : DecimalText :=
  let (len, mem) := i32toa_sse2 num.toInt s.pos s.mem
  { s with pos := s.pos + (len.toNat - 1), mem := mem, isZero := false }

/-- The `width` digits of a part behind others.  A text that is longer makes the length for `memcpy`
    negative. -/
def putPadded (num : BitVec 32) (width : Nat) : Exec DecimalText :=
  if num ≠ 0 then
    let (l, mem) := i32toa_sse2b num.toInt (s.pos + width) s.mem
    let len := l - 1
    if width < len then .error .outOfBounds
    else .ok { s with pos := s.pos + width, mem := { s with mem := mem }.zeros (width - len) }
  else .ok { s with pos := s.pos + width, mem := s.zeros width }

/-- The first digits in front of the point. -/
def intFirstPart (mask : BitVec 32) (intFirstPartNumSize intFirstPartSize : Nat) :
    Exec DecimalText := do
  if 0 < intFirstPartSize then
    let part ← getPartNumberFromDecimal intFirstPartSize s.data
    let num := (part ^^^ mask) &&& (← tableAt digMasks intFirstPartNumSize)
    let s := if num ≠ 0 then s.putNumber num else s
    return { s with data := ← advance intFirstPartSize s.data }
  else return s

/-- The digits of a full part in front of the point. -/
def putFullPart (num : BitVec 32) (intFirstPartSize i : Nat) : Exec DecimalText :=
  if num ≠ 0 then
    if s.isZero then .ok (s.putNumber num)
    else
      let (l, mem) := i32toa_sse2b num.toInt (s.pos + 9) s.mem
      let len := l - 1
      if len ≠ 9 ∧ (0 < i ∨ 0 < intFirstPartSize) then
        if 9 < len then .error .outOfBounds
        else .ok { s with pos := s.pos + 9, mem := { s with mem := mem }.zeros (9 - len) }
      else .ok { s with pos := s.pos + 9, mem := mem }
  else if s.isZero then .ok s
  else .ok { s with pos := s.pos + 9, mem := s.zeros 9 }

/-- `n` rounds of the loop over these parts from `i` on. -/
def intFullParts (mask : BitVec 32) (intFirstPartSize : Nat) (s : DecimalText) :
    (i n : Nat) → Exec DecimalText
  | _, 0 => .ok s
  | i, n + 1 => do
    let num := BitVec.ofInt 32 (← mi_sint4korr s.data) ^^^ mask
    let s ← s.putFullPart num intFirstPartSize i
    intFullParts mask intFirstPartSize { s with data := ← advance 4 s.data } (i + 1) n

/-- `n` full parts behind the point. -/
def fracFullParts (mask : BitVec 32) (s : DecimalText) : (n : Nat) → Exec DecimalText
  | 0 => .ok s
  | n + 1 => do
    let num := BitVec.ofInt 32 (← mi_sint4korr s.data) ^^^ mask
    let s ← s.putPadded num 9
    fracFullParts mask { s with data := ← advance 4 s.data } n

/-- The last digits behind the point. -/
def fracFirstPart (mask : BitVec 32) (intFirstPartNumSize fracFirstPartNumSize fracFirstPartSize : Nat) :
    Exec DecimalText := do
  if 0 < fracFirstPartSize then
    let part ← getPartNumberFromDecimal fracFirstPartSize s.data
    -- the mask is that of the digits in front of the point
    let num := (part ^^^ mask) &&& (← tableAt digMasks intFirstPartNumSize)
    let s ← s.putPadded num fracFirstPartNumSize
    return { s with data := ← advance fracFirstPartSize s.data }
  else return s

/-- The point and the digits behind it. -/
def fraction (mask : BitVec 32) (scale intFirstPartNumSize : Nat) : Exec DecimalText := do
  let fracFullPartSize := scale / 9
  let fracFirstPartNumSize := scale - fracFullPartSize * 9
  let fracFirstPartSize ← tableAt dig2bytes fracFirstPartNumSize
  if 0 < scale then
    let s ← (s.put 0x2e).fracFullParts mask fracFullPartSize
    s.fracFirstPart mask intFirstPartNumSize fracFirstPartNumSize fracFirstPartSize
  else return s

end DecimalText

/-- The length of the text at `to`, the memory behind the value, and that of the text.  `prec` and
    `scale` are `uint8_t`. -/
def parseDecimalToString (data : List UInt8) (to' prec scale : Nat) (mem : RawMemory) :
    Exec (Nat × List UInt8 × RawMemory) := do
  let first ← tableAt data 0
  let mask : BitVec 32 := if first &&& 0x80 ≠ 0 then 0 else -1
  let intSize := (prec + 256 - scale) % 256
  let intFullPartSize := intSize / 9
  let intFirstPartNumSize := intSize - intFullPartSize * 9
  let intFirstPartSize ← tableAt dig2bytes intFirstPartNumSize
  let sign : Bool := first &&& 0x80 = 0
  -- the bit is inverted in the event itself
  let data := data.set 0 (if sign then first ||| 0x80 else first &&& ~~~0x80)
  let s : DecimalText := { data := data, pos := to', mem := mem }
  let s := if sign then s.put 0x2d else s
  let s ← s.intFirstPart mask intFirstPartNumSize intFirstPartSize
  let s ← DecimalText.intFullParts mask intFirstPartSize s 0 intFullPartSize
  let s := if s.isZero then s.put 0x30 else s
  let s ← s.fraction mask scale intFirstPartNumSize
  let s := s.put 0
  return (s.pos - to', s.data, s.mem)

/-! ## What is set -/

/-- A call of a setter of `DMLRecord`. -/
inductive SetCall where
  | setFixedColumn (id : Nat) (value : List UInt8)
  | setFixedUpdatedColumn (id : Nat) (value : List UInt8)
  | setVarColumn (id : Nat) (value : List UInt8)
  | setVardUpdatedColumn (id : Nat) (value : List UInt8)
  deriving DecidableEq

def SetCall.run (r : DMLRecord) : SetCall → Exec DMLRecord
  | setFixedColumn id value => r.setFixedColumn id value
  | setFixedUpdatedColumn id value => r.setFixedUpdatedColumn id value
  | setVarColumn id value => r.setVarColumn id value
  | setVardUpdatedColumn id value => r.setVardUpdatedColumn id value

/-- The call for a value of fixed length in the image that `newOrOld` says. -/
def setFixed (newOrOld : Bool) (id : Nat) (value : List UInt8) : SetCall :=
  if newOrOld then .setFixedColumn id value else .setFixedUpdatedColumn id value

/-- The same for the other values. -/
def setVar (newOrOld : Bool) (id : Nat) (value : List UInt8) : SetCall :=
  if newOrOld then .setVarColumn id value else .setVardUpdatedColumn id value

/-- A parser of the values of a column: no result if it does not return 0. -/
abbrev ColumnParser := ColumnMeta → List UInt8 → Bool → Exec (Option (SetCall × List UInt8))

/-! ## Times -/

def DATETIME_MAX_DECIMALS : Nat := 6

def TIMEF_OFS : Int := 0x800000000000
def TIMEF_INT_OFS : Int := 0x800000
def DATETIMEF_INT_OFS : Nat := 0x8000000000

/-- The three functions for the length of a time add the bytes of the fraction. -/
def binary_length (bytes dec : Nat) : Exec Nat :=
  if dec ≤ DATETIME_MAX_DECIMALS then .ok (bytes + (dec + 1) / 2) else .error .assertFailed

def my_timestamp_binary_length : Nat → Exec Nat := binary_length 4
def my_datetime_binary_length : Nat → Exec Nat := binary_length 5
def my_time_binary_length : Nat → Exec Nat := binary_length 3

/-- `intpart` and `frac` of the caller. -/
def my_time_packed_from_binary (ptr : List UInt8) (dec : Nat) : Exec (Int × Int) := do
  if DATETIME_MAX_DECIMALS < dec then throw .assertFailed
  match dec with
  | 1 | 2 =>
    let intpart : Int := (← mi_uint3korr ptr) - TIMEF_INT_OFS
    let frac : Int := (← tableAt ptr 3).toNat
    if intpart < 0 ∧ frac ≠ 0 then return (intpart + 1, (frac - 0x100) * 10000)
    else return (intpart, frac * 10000)
  | 3 | 4 =>
    -- `intpart` and `frac` are variables of this block, which end with it
    let _ ← mi_uint3korr ptr
    let _ ← mi_uint2korr (ptr.drop 3)
    return (0, 0)
  | 5 | 6 =>
    let tm : Int := (← mi_uint6korr ptr) - TIMEF_OFS
    return (tm / 2 ^ 24, tm % 2 ^ 24)
  | _ => return ((← mi_uint3korr ptr) - TIMEF_INT_OFS, 0)

/-- `junk` is in the variable that the `Time` is created in, here and below. -/
def parse_MYSQL_TYPE_TIME2 (junk : BitVec 64) : ColumnParser := fun colMeta data newOrOld => do
  let (intpart, frac) ← my_time_packed_from_binary data colMeta.m_decimals
  let neg : Bool := intpart < 0
  let intpart := intpart.natAbs
  let hour : Int := (intpart / 2 ^ 12 % 2 ^ 10 : Nat)
  let hour := if neg then -hour else hour
  -- `frac` becomes a `uint32_t`
  let tm := Time.set ⟨junk⟩ hour (intpart / 2 ^ 6 % 2 ^ 6) (intpart % 2 ^ 6) (frac % 2 ^ 32).toNat
  let data ← advance (← my_time_binary_length colMeta.m_decimals) data
  return some (setFixed newOrOld colMeta.m_columnIndex (LE.bytes 8 tm.time.toNat), data)

/-- The fraction behind `p` bytes: one byte or two or three for the precision, each with a scale. -/
def timeFraction (data : List UInt8) (p precision : Nat) (one two three : Int) : Exec Int := do
  match precision with
  | 1 | 2 => return signed 1 (← tableAt data p).toNat * one
  | 3 | 4 => return (← mi_sint2korr (data.drop p)) * two
  | 5 | 6 => return (← mi_sint3korr (data.drop p)) * three
  | _ => return 0

def parse_MYSQL_TYPE_TIMESTAMP2 (junk : BitVec 64) : ColumnParser := fun colMeta data newOrOld => do
  if DATETIME_MAX_DECIMALS < colMeta.m_precision then throw .assertFailed
  let seconds ← mi_uint4korr data
  let nanoSeconds ← timeFraction data 4 colMeta.m_precision 10000000 100000 1000
  -- `nanoSeconds` is a `uint32_t`
  let t := Timestamp.create ⟨junk⟩ seconds (nanoSeconds % 2 ^ 32).toNat
  let data ← advance (← my_timestamp_binary_length colMeta.m_precision) data
  return some (setFixed newOrOld colMeta.m_columnIndex (LE.bytes 8 t.time.toNat), data)

def parse_MYSQL_TYPE_DATETIME2 (junk : BitVec 64) : ColumnParser := fun colMeta data newOrOld => do
  let intpart := ((← mi_uint5korr data) + 2 ^ 64 - DATETIMEF_INT_OFS) % 2 ^ 64
  let frac ← timeFraction data 5 colMeta.m_precision 10000 100 1
  let ymd := intpart / 2 ^ 17
  let hms := intpart % 2 ^ 17
  let ym := ymd / 2 ^ 5
  -- the year is an `int32_t`, `hms >> 12` a `uint8_t` and `frac` a `uint32_t`
  let tm := DateTime.set ⟨junk⟩ (signed 4 (ym / 13 % 2 ^ 32)) (ym % 13) (ymd % 2 ^ 5)
    (hms / 2 ^ 12 % 2 ^ 8) (hms / 2 ^ 6 % 2 ^ 6) (hms % 2 ^ 6) (frac % 2 ^ 32).toNat
  let data ← advance (← my_datetime_binary_length colMeta.m_precision) data
  return some (setFixed newOrOld colMeta.m_columnIndex (LE.bytes 8 tm.time.toNat), data)

/-! ## Integers -/

/-- The integer parsers but for that of three bytes: the value is copied, whether `m_signed` or
not. -/
def parseInteger (w : Nat) : ColumnParser := fun colMeta data newOrOld => do
  let value ← ukorr w data
  return some (setFixed newOrOld colMeta.m_columnIndex (LE.bytes w value), ← advance w data)

def parse_MYSQL_TYPE_TINY : ColumnParser := parseInteger 1
def parse_MYSQL_TYPE_SHORT : ColumnParser := parseInteger 2
def parse_MYSQL_TYPE_LONG : ColumnParser := parseInteger 4
def parse_MYSQL_TYPE_LONGLONG : ColumnParser := parseInteger 8

/-- `sint3korr`, as an `int32_t`. -/
def sint3korr (data : List UInt8) : Exec Nat := do
  return (signed 3 (← ukorr 3 data) % 2 ^ 32).toNat

def parse_MYSQL_TYPE_INT24 : ColumnParser := fun colMeta data newOrOld => do
  let value ← if colMeta.m_signed then sint3korr data else ukorr 3 data
  return some (setFixed newOrOld colMeta.m_columnIndex (LE.bytes 4 value), ← advance 3 data)

/-! ## Dates and years -/

def parse_MYSQL_TYPE_NEWDATE (junk : BitVec 32) : ColumnParser := fun colMeta data newOrOld => do
  let intpart ← ukorr 3 data
  let date := Date.set ⟨junk⟩ (intpart / 2 ^ 9 : Nat) (intpart / 2 ^ 5 % 2 ^ 4) (intpart % 2 ^ 5)
  return some (setFixed newOrOld colMeta.m_columnIndex (LE.bytes 4 date.time.toNat),
    ← advance 3 data)

/-- Two bytes are read, and the length is 1. -/
def parse_MYSQL_TYPE_YEAR : ColumnParser := fun colMeta data newOrOld => do
  let value := 1900 + (← ukorr 2 data)
  return some (setFixed newOrOld colMeta.m_columnIndex (LE.bytes 2 value), ← advance 1 data)

/-! ## Strings -/

/-- A length of `w` bytes and the text. -/
def parseText (w : Nat) : ColumnParser := fun colMeta data newOrOld => do
  let size ← ukorr w data
  let text ← advance w data
  let rest ← advance size text
  return some (setVar newOrOld colMeta.m_columnIndex (text.take size), rest)

def parse_MYSQL_TYPE_STRING : ColumnParser := fun colMeta =>
  if 0xff ≤ colMeta.m_size then parseText 2 colMeta else parseText 1 colMeta

def parse_MYSQL_TYPE_VAR_STRING : ColumnParser := fun colMeta =>
  if colMeta.m_size < 256 then parseText 1 colMeta else parseText 2 colMeta

def MYSQL_TYPE_TINY_BLOB : Nat := 249
def MYSQL_TYPE_MEDIUM_BLOB : Nat := 250
def MYSQL_TYPE_LONG_BLOB : Nat := 251
def MYSQL_TYPE_BLOB : Nat := 252

def parse_MYSQL_TYPE_BLOB : ColumnParser := fun colMeta data newOrOld =>
  if colMeta.m_srcColumnType = MYSQL_TYPE_TINY_BLOB then parseText 1 colMeta data newOrOld
  else if colMeta.m_srcColumnType = MYSQL_TYPE_BLOB then parseText 2 colMeta data newOrOld
  else if colMeta.m_srcColumnType = MYSQL_TYPE_MEDIUM_BLOB then parseText 3 colMeta data newOrOld
  else if colMeta.m_srcColumnType = MYSQL_TYPE_LONG_BLOB then parseText 4 colMeta data newOrOld
  else return none

def parse_MYSQL_TYPE_GEOMETRY : ColumnParser := parseText 4

/-! ## Bits, sets and enumerations -/

/-- The bytes that are not copied to `bitValue` are what was there before. -/
def parse_MYSQL_TYPE_BIT (junk : BitVec 64) : ColumnParser := fun colMeta data newOrOld => do
  -- `bitSize` is a `uint8_t`
  let bitSize := (colMeta.m_size + 7) / 8 % 256
  let value ← ukorr bitSize data
  let bitValue := (value + junk.toNat / 256 ^ bitSize * 256 ^ bitSize) / 2 ^ (64 - colMeta.m_size)
  return some (setFixed newOrOld colMeta.m_columnIndex (LE.bytes 8 bitValue), ← advance bitSize data)

/-- The value is set in the new image, whatever `newOrOld` says. -/
def parse_MYSQL_TYPE_SET : ColumnParser := fun colMeta data _ => do
  let m_count := colMeta.m_setAndEnumValueList.length
  if 0 < m_count then
    let bitmapSize := if 32 < m_count then 8 else (m_count + 7) / 8
    let value ← ukorr bitmapSize data
    return some (.setFixedColumn colMeta.m_columnIndex (LE.bytes 8 value), ← advance bitmapSize data)
  else return none

/-- The index is a `uint32_t`, and the one byte is a `char`. -/
def parse_MYSQL_TYPE_ENUM : ColumnParser := fun colMeta data newOrOld => do
  if 255 < colMeta.m_size then
    let enumValueIndex ← ukorr 2 data
    return some (setFixed newOrOld colMeta.m_columnIndex (LE.bytes 4 enumValueIndex),
      ← advance 2 data)
  else
    let enumValueIndex := (signed 1 (← ukorr 1 data) % 2 ^ 32).toNat
    return some (setFixed newOrOld colMeta.m_columnIndex (LE.bytes 4 enumValueIndex),
      ← advance 1 data)

/-! ## The table of the parsers -/

def MYSQL_TYPE_TINY : Nat := 1
def MYSQL_TYPE_SHORT : Nat := 2
def MYSQL_TYPE_LONG : Nat := 3
def MYSQL_TYPE_LONGLONG : Nat := 8
def MYSQL_TYPE_INT24 : Nat := 9
def MYSQL_TYPE_YEAR : Nat := 13
def MYSQL_TYPE_VARCHAR : Nat := 15
def MYSQL_TYPE_BIT : Nat := 16
def MYSQL_TYPE_TIMESTAMP2 : Nat := 17
def MYSQL_TYPE_DATETIME2 : Nat := 18
def MYSQL_TYPE_TIME2 : Nat := 19
def MYSQL_TYPE_VAR_STRING : Nat := 253
def MYSQL_TYPE_GEOMETRY : Nat := 255

/-- What `initColumnTypeInfo` registers, of the parsers that are here. -/
def parseFuncs (junk : BitVec 64) : List (Nat × ColumnParser) :=
  [(MYSQL_TYPE_BIT, parse_MYSQL_TYPE_BIT junk), (MYSQL_TYPE_TINY, parse_MYSQL_TYPE_TINY),
    (MYSQL_TYPE_SHORT, parse_MYSQL_TYPE_SHORT), (MYSQL_TYPE_INT24, parse_MYSQL_TYPE_INT24),
    (MYSQL_TYPE_LONG, parse_MYSQL_TYPE_LONG), (MYSQL_TYPE_LONGLONG, parse_MYSQL_TYPE_LONGLONG),
    (MYSQL_TYPE_TIMESTAMP2, parse_MYSQL_TYPE_TIMESTAMP2 junk),
    (MYSQL_TYPE_DATETIME2, parse_MYSQL_TYPE_DATETIME2 junk),
    (MYSQL_TYPE_TIME2, parse_MYSQL_TYPE_TIME2 junk), (MYSQL_TYPE_YEAR, parse_MYSQL_TYPE_YEAR),
    (MYSQL_TYPE_NEWDATE, parse_MYSQL_TYPE_NEWDATE (junk.setWidth 32)),
    (MYSQL_TYPE_STRING, parse_MYSQL_TYPE_STRING), (MYSQL_TYPE_VARCHAR, parse_MYSQL_TYPE_VAR_STRING),
    (MYSQL_TYPE_VAR_STRING, parse_MYSQL_TYPE_VAR_STRING),
    (MYSQL_TYPE_TINY_BLOB, parse_MYSQL_TYPE_BLOB), (MYSQL_TYPE_MEDIUM_BLOB, parse_MYSQL_TYPE_BLOB),
    (MYSQL_TYPE_LONG_BLOB, parse_MYSQL_TYPE_BLOB), (MYSQL_TYPE_BLOB, parse_MYSQL_TYPE_BLOB),
    (MYSQL_TYPE_ENUM, parse_MYSQL_TYPE_ENUM), (MYSQL_TYPE_SET, parse_MYSQL_TYPE_SET),
    (MYSQL_TYPE_GEOMETRY, parse_MYSQL_TYPE_GEOMETRY)]

def parseFunc (junk : BitVec 64) (type : Nat) : Option ColumnParser := (parseFuncs junk).lookup type

end DBStream.Native.DATA_SOURCE
