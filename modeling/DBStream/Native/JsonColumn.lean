import DBStream.ForStd.RawMemory

/-!
# Binary JSON

`bjson2Str` of `dataSource/mysqlDataSource/columnParser.cpp`, which writes the text of a value of a
`JSON` column, the functions it calls, and of `util/itoaSse.h` those that write integers.

A pointer into the value is the memory from there on; the text goes to a memory of its own.  A read
that leaves the first memory, a call of a null pointer and a value nested deeper than the fuel give
no result (`none`).  A length is an `Int`, as the callers compare it: -1 is an error.
-/

namespace DBStream.Native.DATA_SOURCE.JsonColumn

/-- A function that writes the text of the value at `data`, of at most `dataSize` bytes, at
`jsonStr`: the length it returns and the memory. -/
abbrev Renderer :=
  (data : List UInt8) → (dataSize : Nat) → (jsonStr : Nat) → RawMemory → Option (Int × RawMemory)

/-! ## Reads -/

def bytesAt (data : List UInt8) (p n : Nat) : Option (List UInt8) :=
  if p + n ≤ data.length then some (data.slice p n) else none

/-- A word of `w` bytes. -/
def wordAt (data : List UInt8) (p w : Nat) : Option Nat := (bytesAt data p w).map LE.nat

/-- `a - b` of two `size_t`. -/
def sizeSub (a b : Nat) : Nat := (a + (2 ^ 64 - b)) % 2 ^ 64

/-- The integer of `w` bytes with a sign. -/
def signed (w n : Nat) : Int := if n < 2 ^ (8 * w - 1) then n else n - 2 ^ (8 * w)

/-! ## Integers -/

def gDigitsLut (i : Nat) : UInt8 :=
  UInt8.ofNat (0x30 + if i % 2 = 0 then i / 2 / 10 else i / 2 % 10)

/-- `Convert8DigitsSSE2` and the addition of `kAsciiZero`. -/
def Convert8DigitsSSE2 (value : Nat) : List UInt8 :=
  [10000000, 1000000, 100000, 10000, 1000, 100, 10, 1].map fun p =>
    UInt8.ofNat (0x30 + value / p % 10)

/-- Write a text and return its length. -/
def put (text : List UInt8) (dest : Nat) (m : RawMemory) : Int × RawMemory :=
  (text.length, m.write dest text)

/-- The length counts the byte 0 behind the digits, here and in the functions that follow. -/
def u32toa_sse2 (value dest : Nat) (m : RawMemory) : Int × RawMemory :=
  if value < 10000 then
    let d1 := value / 100 * 2
    let d2 := value % 100 * 2
    put ((if 1000 ≤ value then [gDigitsLut d1] else []) ++
      (if 100 ≤ value then [gDigitsLut (d1 + 1)] else []) ++
      (if 10 ≤ value then [gDigitsLut d2] else []) ++ [gDigitsLut (d2 + 1), 0]) dest m
  else if value < 100000000 then
    let b := value / 10000
    let c := value % 10000
    let d1 := b / 100 * 2
    let d2 := b % 100 * 2
    let d3 := c / 100 * 2
    let d4 := c % 100 * 2
    put ((if 10000000 ≤ value then [gDigitsLut d1] else []) ++
      (if 1000000 ≤ value then [gDigitsLut (d1 + 1)] else []) ++
      (if 100000 ≤ value then [gDigitsLut d2] else []) ++
      [gDigitsLut (d2 + 1), gDigitsLut d3, gDigitsLut (d3 + 1), gDigitsLut d4,
        gDigitsLut (d4 + 1), 0]) dest m
  else
    let a := value / 100000000
    put ((if 10 ≤ a then [gDigitsLut (a * 2), gDigitsLut (a * 2 + 1)] else [UInt8.ofNat (0x30 + a)])
      ++ Convert8DigitsSSE2 (value % 100000000) ++ [0]) dest m

def i32toa_sse2 (value : Int) (dest : Nat) (m : RawMemory) : Int × RawMemory :=
  if value < 0 then
    let (len, m) := u32toa_sse2 value.natAbs (dest + 1) (m.write dest [0x2d])
    (len + 1, m)
  else u32toa_sse2 value.natAbs dest m

def u64toa_sse2 (value dest : Nat) (m : RawMemory) : Int × RawMemory :=
  -- the branches below are those of `u32toa_sse2`
  if value < 100000000 then u32toa_sse2 value dest m
  else if value < 10000000000000000 then
    let va := Convert8DigitsSSE2 (value / 100000000) ++ Convert8DigitsSSE2 (value % 100000000)
    let digit := min 15 (va.takeWhile (· = 0x30)).length
    -- all sixteen bytes are stored, zeros behind the digits
    let m := m.write dest (va.drop digit ++ List.replicate digit 0)
    ((16 - digit + 1 : Nat), m.write (dest + (16 - digit)) [0])
  else
    let a := value / 10000000000000000
    let value := value % 10000000000000000
    let i := a % 100 * 2
    put ((if a < 10 then [UInt8.ofNat (0x30 + a)]
        else if a < 100 then [gDigitsLut (a * 2), gDigitsLut (a * 2 + 1)]
        else if a < 1000 then [UInt8.ofNat (0x30 + a / 100), gDigitsLut i, gDigitsLut (i + 1)]
        else [gDigitsLut (a / 100 * 2), gDigitsLut (a / 100 * 2 + 1), gDigitsLut i,
          gDigitsLut (i + 1)])
      ++ Convert8DigitsSSE2 (value / 100000000) ++ Convert8DigitsSSE2 (value % 100000000) ++ [0])
      dest m

def i64toa_sse2 (value : Int) (dest : Nat) (m : RawMemory) : Int × RawMemory :=
  if value < 0 then
    let (len, m) := u64toa_sse2 value.natAbs (dest + 1) (m.write dest [0x2d])
    (len + 1, m)
  else u64toa_sse2 value.natAbs dest m

def parseJ_INT16 : Renderer := fun data _ jsonStr m => do
  return u32toa_sse2 (← wordAt data 0 2) jsonStr m

def parseJ_UINT16 : Renderer := fun data _ jsonStr m => do
  return i32toa_sse2 (signed 2 (← wordAt data 0 2)) jsonStr m

def parseJ_INT32 : Renderer := fun data _ jsonStr m => do
  return i32toa_sse2 (signed 4 (← wordAt data 0 4)) jsonStr m

def parseJ_UINT32 : Renderer := fun data _ jsonStr m => do
  return u32toa_sse2 (← wordAt data 0 4) jsonStr m

def parseJ_INT64 : Renderer := fun data _ jsonStr m => do
  return i64toa_sse2 (signed 8 (← wordAt data 0 8)) jsonStr m

def parseJ_UINT64 : Renderer := fun data _ jsonStr m => do
  return u64toa_sse2 (← wordAt data 0 8) jsonStr m

/-! ## Literals and strings -/

def parseJ_LITERAL : Renderer := fun data dataSize jsonStr m =>
  if dataSize < 1 then some (-1, m)
  else do
    let literal : UInt8 ← data[0]?
    match literal with
    | 0 => return put [0x6e, 0x75, 0x6c, 0x6c] jsonStr m
    | 1 => return put [0x74, 0x72, 0x75, 0x65] jsonStr m
    | 2 => return put [0x66, 0x61, 0x6c, 0x73, 0x65] jsonStr m
    | _ => return (-1, m)

/-- `(data[i] & 0x7f) << (7 * i)`, an `int`, as a `size_t`. -/
def shifted (b : UInt8) (i : Nat) : Nat :=
  let n := (b &&& 0x7f).toNat <<< (7 * i) % 2 ^ 32
  if n < 2 ^ 31 then n else n + (2 ^ 64 - 2 ^ 32)

/-- `read_variable_length` from byte `i` on, of at most `todo` bytes: the length and the number of
its bytes, or `some none` for an error. -/
def readLength (data : List UInt8) : (todo i len : Nat) → Option (Option (Nat × Nat))
  | 0, _, _ => some none
  | todo + 1, i, len => do
    let b ← data[i]?
    let len := len ||| shifted b i
    if b &&& 0x80 = 0 then
      return if 0xffffffff < len then none else some (len, i + 1)
    else readLength data todo (i + 1) len

def read_variable_length (data : List UInt8) (data_length : Nat) : Option (Option (Nat × Nat)) :=
  readLength data (min data_length 5) 0 0

/-- `esc`, if `done` stays set. -/
def escapeOf (c : UInt8) : Option UInt8 :=
  match c with
  | 0x22 => some 0
  | 0x5c => some 0
  | 0x08 => some 0x62
  | 0x0c => some 0x66
  | 0x0a => some 0x6e
  | 0x0d => some 0x72
  | 0x09 => some 0x74
  | _ => none

def _dig_vec_lower (i : UInt8) : UInt8 := if i < 10 then 0x30 + i else 0x57 + i

/-- What `double_quote` writes for a character: each list is one store. -/
def stores (c : UInt8) : List (List UInt8) :=
  if 0x1f < c ∧ c ≠ 0x5c then [[c]]
  else match escapeOf c with
  | some esc => [[0x5c], [esc]]
  | none =>
    if c &&& 0x80 = 0 ∧ c < 0x1f then
      [[0x5c, 0x75, 0x30, 0x30], [_dig_vec_lower ((c &&& 0xf0) >>> 4)], [_dig_vec_lower (c &&& 0x0f)]]
    else [[c]]

/-- A store at `buf + size`; `size` is a `uint32_t`. -/
def store (buf : Nat) (s : Nat × RawMemory) (d : List UInt8) : Nat × RawMemory :=
  ((s.1 + d.length) % 2 ^ 32, s.2.write (buf + s.1) d)

def double_quote (cptr : List UInt8) (buf : Nat) (m : RawMemory) : Nat × RawMemory :=
  ([[0x22]] ++ cptr.flatMap stores ++ [[0x22]]).foldl (store buf) (0, m)

def parseJ_STRING : Renderer := fun data dataSize jsonStr m => do
  match ← read_variable_length data dataSize with
  | none => return (-1, m)
  | some (val_len, n) =>
    let (size, m) := double_quote (← bytesAt data n val_len) jsonStr m
    return (size, m)

/-! ## Containers -/

/-- The type codes between which a value is in its entry, for offsets of `w` bytes. -/
def inlined (w : Nat) (type : UInt8) : Bool := 0x4 ≤ type ∧ type ≤ if w = 4 then 0x8 else 0x6

section
variable (parseJsonType : UInt8 → Renderer) (w : Nat) (data : List UInt8) (dataSize jsonStr : Nat)

/-- The value of the entry at `p`, and the comma behind it. -/
def valueText (p jsonStrSize : Nat) (m : RawMemory) : Option (Int × RawMemory) := do
  let type ← data[p]?
  let offset ← wordAt data (p + 1) w
  let (subLength, m) ←
    if inlined w type then parseJsonType type (data.drop (p + 1)) w (jsonStr + jsonStrSize) m
    else parseJsonType type (data.drop offset) (sizeSub dataSize offset) (jsonStr + jsonStrSize) m
  if subLength < 0 then return (-1, m)
  let jsonStrSize := jsonStrSize + subLength.toNat
  return (jsonStrSize + 2, m.write (jsonStr + jsonStrSize) [0x2c, 0x20])

/-- The key of the entry at `p`, and the colon behind it. -/
def keyText (p jsonStrSize : Nat) (m : RawMemory) : Option (Nat × RawMemory) := do
  let key ← bytesAt data (← wordAt data p w) (← wordAt data (p + w) 2)
  let (size, m) := double_quote key (jsonStr + jsonStrSize) m
  let jsonStrSize := jsonStrSize + size
  return (jsonStrSize + 2, m.write (jsonStr + jsonStrSize) [0x3a, 0x20])

/-- The end of a container: `close` takes the place of the last comma. -/
def closeText (close : UInt8) (jsonStrSize : Nat) (m : RawMemory) : Int × RawMemory :=
  ((jsonStrSize : Int) - 1, m.write (jsonStr + jsonStrSize - 2) [close])

/-- The loop of `array2Str` from element `i` on. -/
def elementsText (values : Nat) : (todo i jsonStrSize : Nat) → RawMemory → Option (Int × RawMemory)
  | 0, _, jsonStrSize, m => some (closeText jsonStr 0x5d jsonStrSize m)
  | todo + 1, i, jsonStrSize, m => do
    let (size, m) ← valueText parseJsonType w data dataSize jsonStr (values + i * (1 + w)) jsonStrSize m
    if size < 0 then return (-1, m)
    elementsText values todo (i + 1) size.toNat m

/-- The loop of `object2Str` from member `i` on. -/
def membersText (keys values : Nat) :
    (todo i jsonStrSize : Nat) → RawMemory → Option (Int × RawMemory)
  | 0, _, jsonStrSize, m => some (closeText jsonStr 0x7d jsonStrSize m)
  | todo + 1, i, jsonStrSize, m => do
    let (size, m) ← keyText w data jsonStr (keys + i * (w + 2)) jsonStrSize m
    let (size, m) ← valueText parseJsonType w data dataSize jsonStr (values + i * (1 + w)) size m
    if size < 0 then return (-1, m)
    membersText keys values todo (i + 1) size.toNat m

end

/-- `object2Str` for a `SIZE_TYPE` of `w` bytes. -/
def object2Str (parseJsonType : UInt8 → Renderer) (w : Nat) : Renderer :=
  fun data dataSize jsonStr m => do
    let element_count ← wordAt data 0 w
    let _bytes ← wordAt data w w
    let keys := w * 2
    let values := keys + element_count * (w + 2)
    if dataSize < values + element_count * (1 + w) then return (-1, m)
    membersText parseJsonType w data dataSize jsonStr keys values element_count 0 1
      (m.write jsonStr [0x7b])

/-- `array2Str` for a `SIZE_TYPE` of `w` bytes. -/
def array2Str (parseJsonType : UInt8 → Renderer) (w : Nat) : Renderer :=
  fun data dataSize jsonStr m => do
    let element_count ← wordAt data 0 w
    let _bytes ← wordAt data w w
    let values := w * 2
    if dataSize < values + element_count * (1 + w) then return (-1, m)
    elementsText parseJsonType w data dataSize jsonStr values element_count 0 1
      (m.write jsonStr [0x5b])

/-! ## The table -/

/-- What no value without doubles needs: `my_gcvt` of the eight bytes of a double, and the texts
that `parseJ_OPAQUE` writes for the types of fields (`none` for the others). -/
structure Writers where
  my_gcvt : List UInt8 → Nat → RawMemory → Int × RawMemory
  opaqueText : (field_type : UInt8) → List UInt8 → Nat → RawMemory → Option (Int × RawMemory)

variable (writers : Writers)

def parseJ_DOUBLE : Renderer := fun data _ jsonStr m => do
  return writers.my_gcvt (← bytesAt data 0 8) jsonStr m

def parseJ_OPAQUE : Renderer := fun data dataSize jsonStr m => do
  let field_type ← data[0]?
  match ← read_variable_length (data.drop 1) (sizeSub dataSize 1) with
  | none => return (-1, m)
  | some (val_len, n) =>
    if dataSize < 1 + n + val_len then return (-1, m)
    return (writers.opaqueText field_type (data.drop (1 + n)) jsonStr m).getD (-1, m)

/-- The table has 32 places, those behind `parseJ_OPAQUE` are null. -/
def parseJsonType : (fuel : Nat) → UInt8 → Renderer
  | 0, _ => fun _ _ _ _ => none
  | fuel + 1, type => fun data dataSize jsonStr m => do
    let parse ← [
      object2Str (parseJsonType fuel) 2,
      object2Str (parseJsonType fuel) 4,
      array2Str (parseJsonType fuel) 2,
      array2Str (parseJsonType fuel) 4,
      parseJ_LITERAL,
      parseJ_INT16,
      parseJ_UINT16,
      parseJ_INT32,
      parseJ_UINT32,
      parseJ_INT64,
      parseJ_UINT64,
      parseJ_DOUBLE writers,
      parseJ_STRING,
      parseJ_OPAQUE writers][type.toNat]?
    parse data dataSize jsonStr m

def bjson2Str (fuel : Nat) (bjson : List UInt8) (bjsonSize jsonStr : Nat) (m : RawMemory) :
    Option (Int × RawMemory) := do
  parseJsonType writers fuel (← bjson[0]?) (bjson.drop 1) (sizeSub bjsonSize 1) jsonStr m

end DBStream.Native.DATA_SOURCE.JsonColumn
