import DBStream.Native.Record

/-!
# Keys

The column types that may be part of a key, `unionKeyMeta`, `binaryType` and `unionKey` of
`meta/columnType.{h,cpp}`, and the part of a row an index reads.

A key is its bytes: the value of the column for an index on one column, and what
`unionKey::initKey` writes for one on several.  Floating point is not modelled; the comparisons of
`FLOAT` and `DOUBLE` values are a parameter (`FloatOps`).
-/

namespace DBStream.Native

/-- `META::COLUMN_TYPE`, as far as `columnInfos` has them `asIndex`. -/
inductive ColumnType where
  | T_UNION | T_UINT8 | T_INT8 | T_UINT16 | T_INT16 | T_UINT32 | T_INT32 | T_UINT64 | T_INT64
  | T_FLOAT | T_DOUBLE | T_TIMESTAMP | T_DATETIME | T_DATE | T_YEAR | T_TIME | T_BLOB | T_STRING
  | T_BINARY | T_TEXT
  deriving DecidableEq

namespace ColumnType

/-- The value of the enumerator. -/
def code : ColumnType → Nat
  | T_UNION => 0 | T_UINT8 => 1 | T_INT8 => 2 | T_UINT16 => 3 | T_INT16 => 4 | T_UINT32 => 5
  | T_INT32 => 6 | T_UINT64 => 7 | T_INT64 => 8 | T_FLOAT => 10 | T_DOUBLE => 11
  | T_TIMESTAMP => 13 | T_DATETIME => 14 | T_DATE => 15 | T_YEAR => 16 | T_TIME => 17
  | T_BLOB => 18 | T_STRING => 19 | T_BINARY => 26 | T_TEXT => 27

def columnTypeSize : ColumnType → Nat
  | T_UINT8 | T_INT8 => 1
  | T_UINT16 | T_INT16 | T_YEAR => 2
  | T_UNION | T_UINT32 | T_INT32 | T_FLOAT | T_DATE | T_BLOB | T_STRING | T_BINARY | T_TEXT => 4
  | T_UINT64 | T_INT64 | T_DOUBLE | T_TIMESTAMP | T_DATETIME | T_TIME => 8

/-- `columnInfos[t].fixed`; `T_BLOB` is among the fixed types. -/
def fixed : ColumnType → Bool
  | T_UNION | T_STRING | T_BINARY | T_TEXT => false
  | _ => true

/-- The types whose values an index compares as signed integers. -/
def signed : ColumnType → Bool
  | T_INT8 | T_INT16 | T_INT32 | T_INT64 | T_YEAR | T_DATE | T_DATETIME | T_TIME => true
  | _ => false

end ColumnType

/-- The bytes of a key. -/
abbrev Key := List UInt8

/-! ## The metadata of a key -/

structure UniqueKeyTypePair where
  type : ColumnType
  columnId : Nat
  deriving DecidableEq

structure UnionKeyMeta where
  columnInfo : List UniqueKeyTypePair
  size : Nat
  fixed : Bool
  varColumnCount : Nat
  deriving DecidableEq

namespace UnionKeyMeta

def columnCount (m : UnionKeyMeta) : Nat := m.columnInfo.length

/-- The bytes of a column in a union key, without the contents of a variable one. -/
def columnSize (c : UniqueKeyTypePair) : Nat := if c.type.fixed then c.type.columnTypeSize else 2

/-- `tableMeta::createUnionKey`, of columns that may be part of a key. -/
def createUnionKey (columns : List UniqueKeyTypePair) : UnionKeyMeta where
  columnInfo := columns
  size := (columns.map columnSize).sum % 2 ^ 16
  fixed := columns.all fun c => c.type.fixed
  varColumnCount := columns.countP fun c => !c.type.fixed

end UnionKeyMeta

/-! ## Rows -/

/-- What an index reads of a `DMLRecord`: whether it is an update or a replace, the columns marked
    as updated, and the columns of the new and of the old image, each null or the bytes of its
    value. -/
structure Row where
  isUpdate : Bool
  updatedBitmap : Nat → Bool
  column : Nat → Option (List UInt8)
  oldColumnOfUpdateType : Nat → Option (List UInt8)

namespace Row

variable (r : Row)

/-- A column of the new or of the old image. -/
def image (old : Bool) (columnId : Nat) : Option (List UInt8) :=
  if old then r.oldColumnOfUpdateType columnId else r.column columnId

def isKeyUpdated (key : UnionKeyMeta) : Bool :=
  key.columnInfo.any fun c => r.updatedBitmap c.columnId

/-- The test in `appendingIndex::append`. -/
def keyUpdate (key : UnionKeyMeta) : Bool := r.isUpdate && r.isKeyUpdated key

/-- A value of a fixed type, read through the pointer to its column. -/
def readFixed (old : Bool) (c : UniqueKeyTypePair) : Exec (List UInt8) := do
  let d ← deref (r.image old c.columnId)
  if c.type.columnTypeSize ≤ d.length then return d.take c.type.columnTypeSize
  else throw .outOfBounds

/-- The contents of a variable column, empty for a null, and `varColumnSize`. -/
def readVar (old : Bool) (c : UniqueKeyTypePair) : List UInt8 := (r.image old c.columnId).getD []

end Row

/-! ## Union keys -/

namespace UnionKey

variable (meta' : UnionKeyMeta) (r : Row) (old : Bool)

/-- `unionKey::memSize`, a `uint16_t`. -/
def memSize : Nat :=
  if meta'.fixed then meta'.size
  else (meta'.size + ((meta'.columnInfo.filter fun c => !c.type.fixed).map fun c =>
    (r.readVar old c).length).sum) % 2 ^ 16

/-- The bytes of one column in `unionKey::initKey`. -/
def initColumn (c : UniqueKeyTypePair) : Exec (List UInt8) :=
  if c.type.fixed then r.readFixed old c
  else
    let size := (r.readVar old c).length % 2 ^ 16
    .ok (LE.bytes 2 size ++ (r.readVar old c).take size)

/-- `unionKey::initKey` into a buffer of `capacity` bytes. -/
def initKey (size capacity : Nat) : Exec Key := do
  let columns ← meta'.columnInfo.mapM (initColumn r old)
  let key := (if meta'.fixed then [] else LE.bytes 2 size) ++ columns.flatten
  if key.length ≤ capacity then return key else throw .outOfBounds

/-- The key of a row in `appendUnionIndex`.  The buffer for the key of the old image has no room
    for the length in front. -/
def ofRow : Exec Key :=
  let size := memSize meta' r old
  initKey meta' r old size (size + if meta'.fixed ∨ old then 0 else 2)

end UnionKey

/-! ## Comparison -/

/-- The comparisons of `FLOAT` and `DOUBLE` values: `keyComparator`, `>` and `==` for an index on
    one such column, the case of `unionKey::compare`, and the one of `fixedSolidIndex::find`. -/
structure FloatOps where
  compare : ColumnType → Key → Key → Int
  greater : ColumnType → Key → Key → Bool
  equal : ColumnType → Key → Key → Bool
  column : ColumnType → Key → Key → Int
  find : ColumnType → Key → Key → Int

/-- The integer a fixed column holds. -/
def intValue (t : ColumnType) (d : List UInt8) : Int :=
  let n := LE.nat (d.take t.columnTypeSize)
  if t.signed ∧ 2 ^ (8 * t.columnTypeSize - 1) ≤ n then (n : Int) - 2 ^ (8 * t.columnTypeSize)
  else n

/-- A result of type `int`. -/
def toInt32 (n : Int) : Int := (n + 2 ^ 31) % 2 ^ 32 - 2 ^ 31

/-- `memcmp` over the length of the shorter one. -/
def memcmp : List UInt8 → List UInt8 → Int
  | a :: as, b :: bs => if a < b then -1 else if b < a then 1 else memcmp as bs
  | _, _ => 0

/-- `binaryType::compare`. -/
def binaryCompare (a b : List UInt8) : Int :=
  if a.length = b.length then memcmp a b
  else if a.length < b.length then (if 0 < memcmp a b then 1 else -1)
  else if 0 ≤ memcmp a b then 1 else -1

/-- `-1`, `0` or `1`. -/
def compareInt (a b : Int) : Int := if a < b then -1 else if b < a then 1 else 0

namespace UnionKey

variable (F : FloatOps)

/-- A `binaryType` in a union key: its length and its contents. -/
def binaryAt (d : List UInt8) : Exec (List UInt8) :=
  let size := LE.nat (d.take 2)
  if 2 + size ≤ d.length then .ok (d.slice 2 size) else .error .outOfBounds

/-- One case of `unionKey::compare`.  The difference of two 32 bit values is returned as an
    `int`. -/
def compareColumn (t : ColumnType) (src dest : List UInt8) : Exec Int :=
  match t with
  | .T_UINT8 | .T_INT8 | .T_UINT16 | .T_INT16 => .ok (intValue t src - intValue t dest)
  | .T_UINT32 | .T_INT32 => .ok (toInt32 (intValue t src - intValue t dest))
  | .T_UINT64 | .T_INT64 => .ok (compareInt (intValue t src) (intValue t dest))
  | .T_FLOAT | .T_DOUBLE => .ok (F.column t src dest)
  | .T_STRING | .T_BLOB => do return binaryCompare (← binaryAt src) (← binaryAt dest)
  | _ => .error .abort

/-- The place behind a column. -/
def skipColumn (t : ColumnType) (d : List UInt8) : List UInt8 :=
  if t.fixed then d.drop t.columnTypeSize else d.drop (2 + LE.nat (d.take 2))

/-- The loop of `unionKey::compare`. -/
def compareColumns : List UniqueKeyTypePair → List UInt8 → List UInt8 → Exec Int
  | [], _, _ => .ok 0
  | c :: cs, src, dest => do
    let r ← compareColumn F c.type src dest
    if r ≠ 0 then return r
    compareColumns cs (skipColumn c.type src) (skipColumn c.type dest)

def compare (meta' : UnionKeyMeta) (src dest : Key) : Exec Int :=
  let start := if meta'.fixed then 0 else 2
  compareColumns F meta'.columnInfo (src.drop start) (dest.drop start)

end UnionKey

end DBStream.Native

/-!
## Byte strings as keys

`binaryType` of `meta/columnType.{h,cpp}`.  `memcmp` is a parameter, of which the C standard
promises no more than the sign of the answer; `binaryCompare` is `compare` for one such function.
-/

namespace DBStream.Native

/-- `binaryType`.  `size` is a `uint16_t`. -/
structure BinaryType where
  data : List UInt8
  size_lt : data.length < 2 ^ 16

namespace BinaryType

def size (b : BinaryType) : Nat := b.data.length

def compare (memcmp : List UInt8 → List UInt8 → Nat → Int) (a dest : BinaryType) : Int :=
  if a.size = dest.size then memcmp a.data dest.data a.size
  else if a.size < dest.size then if 0 < memcmp a.data dest.data a.size then 1 else -1
  else if 0 ≤ memcmp a.data dest.data dest.size then 1 else -1

end BinaryType

end DBStream.Native
