import DBStream.Native.Record

/-!
# Metadata of keys

The column types and `unionKeyMeta` of `meta/columnType.h`, with `columnUpdate` and the loop that
`tableMeta::dropColumn` runs over the columns of a key.

The array `columnInfo` with its count is a list.  Its pairs are packed into three bytes, which
matters where `dropColumn` moves them.
-/

namespace DBStream.Native.Meta

/-! ## Column types -/

/-- `META::COLUMN_TYPE`, as far as `columnInfos` goes. -/
inductive ColumnType where
  | T_UNION | T_UINT8 | T_INT8 | T_UINT16 | T_INT16 | T_UINT32 | T_INT32 | T_UINT64 | T_INT64
  | T_BIG_NUMBER | T_FLOAT | T_DOUBLE | T_DECIMAL | T_TIMESTAMP | T_DATETIME | T_DATE | T_YEAR
  | T_TIME | T_BLOB | T_STRING | T_JSON | T_XML | T_GEOMETRY | T_SET | T_ENUM | T_BYTE | T_BINARY
  | T_TEXT
  deriving DecidableEq

/-- The value of the enumerator: the constructors are in its order. -/
def ColumnType.code (t : ColumnType) : Nat := t.ctorIdx

/-- `columnTypeInfo`; the type itself is its place in `columnInfos`. -/
structure ColumnTypeInfo where
  columnTypeSize : Nat
  asIndex : Bool
  fixed : Bool
  stringType : Bool
  deriving DecidableEq

def columnInfos : List ColumnTypeInfo := [
  ⟨4, true, false, false⟩, ⟨1, true, true, false⟩, ⟨1, true, true, false⟩, ⟨2, true, true, false⟩,
  ⟨2, true, true, false⟩, ⟨4, true, true, false⟩, ⟨4, true, true, false⟩, ⟨8, true, true, false⟩,
  ⟨8, true, true, false⟩, ⟨4, false, false, false⟩, ⟨4, true, true, false⟩, ⟨8, true, true, false⟩,
  ⟨4, false, false, true⟩, ⟨8, true, true, false⟩, ⟨8, true, true, false⟩, ⟨4, true, true, false⟩,
  ⟨2, true, true, false⟩, ⟨8, true, true, false⟩, ⟨4, true, true, false⟩, ⟨4, true, false, true⟩,
  ⟨4, false, true, true⟩, ⟨4, false, true, true⟩, ⟨4, false, true, false⟩, ⟨8, false, true, true⟩,
  ⟨2, false, true, true⟩, ⟨8, false, true, false⟩, ⟨4, true, false, false⟩, ⟨4, true, false, true⟩]

theorem ColumnType.code_lt (t : ColumnType) : t.code < columnInfos.length := by
  cases t <;> decide

/-- `columnInfos[t]`. -/
def ColumnType.info (t : ColumnType) : ColumnTypeInfo := columnInfos.get ⟨t.code, t.code_lt⟩

theorem ColumnType.columnInfos_code (t : ColumnType) :
    tableAt columnInfos t.code = .ok t.info := by
  simp [tableAt, info, List.getElem?_eq_getElem t.code_lt]

/-! ## Keys -/

/-- `KEY_TYPE`. -/
inductive KeyType where
  | PRIMARY_KEY | UNIQUE_KEY | INDEX
  deriving DecidableEq

/-- `uniqueKeyTypePair`: a byte and a `uint16_t`, packed. -/
structure UniqueKeyTypePair where
  type : Nat
  columnId : Nat
  deriving DecidableEq

/-- `unionKeyMeta`; `columnCount` is the length of `columnInfo`. -/
structure UnionKeyMeta where
  size : Nat
  fixed : Bool
  keyType : KeyType
  keyId : Nat
  varColumnCount : Nat
  columnInfo : List UniqueKeyTypePair
  deriving DecidableEq

/-- The difference of two `uint16_t`. -/
def sub16 (a b : Nat) : Nat := (a + 2 ^ 16 - b % 2 ^ 16) % 2 ^ 16

/-- The difference of two `uint8_t`. -/
def sub8 (a b : Nat) : Nat := (a + 2 ^ 8 - b % 2 ^ 8) % 2 ^ 8

namespace UnionKeyMeta

/-- One turn of the loop of `columnUpdate`: the key with the changes to its sizes, and the pair. -/
def updatePair (start dest : Nat) (newType : ColumnType) (k : UnionKeyMeta)
    (c : UniqueKeyTypePair) : Exec (UnionKeyMeta × UniqueKeyTypePair) := do
  if c.columnId < min start dest ∨ max start dest < c.columnId then return (k, c)
  else if c.columnId = start then
    let old ← tableAt columnInfos c.type
    let k := if old.fixed ∧ ¬newType.info.fixed then
        { k with
          size := (sub16 k.size old.columnTypeSize + 2) % 2 ^ 16
          varColumnCount := (k.varColumnCount + 1) % 2 ^ 8 }
      else if ¬old.fixed ∧ newType.info.fixed then
        { k with
          size := (sub16 k.size 2 + newType.info.columnTypeSize) % 2 ^ 16
          varColumnCount := sub8 k.varColumnCount 1 }
      else if old.fixed then
        { k with
          size := (sub16 k.size old.columnTypeSize + newType.info.columnTypeSize) % 2 ^ 16 }
      else k
    return (k, { type := newType.code, columnId := dest })
  else if dest < start then return (k, { c with columnId := (c.columnId + 1) % 2 ^ 16 })
  else return (k, { c with columnId := sub16 c.columnId 1 })

/-- The loop of `columnUpdate`. -/
def updatePairs (start dest : Nat) (newType : ColumnType) :
    UnionKeyMeta → List UniqueKeyTypePair → Exec (UnionKeyMeta × List UniqueKeyTypePair)
  | k, [] => .ok (k, [])
  | k, c :: cs => do
    let (k, c) ← updatePair start dest newType k c
    let (k, cs) ← updatePairs start dest newType k cs
    return (k, c :: cs)

/-- `columnUpdate`: the column at `start` has moved to `dest` and has a new type. -/
def columnUpdate (k : UnionKeyMeta) (start dest : Nat) (newType : ColumnType) :
    Exec UnionKeyMeta := do
  let (k, columnInfo) ← updatePairs start dest newType k k.columnInfo
  let k := { k with columnInfo := columnInfo }
  if 0 < k.varColumnCount ∧ k.fixed then
    return { k with size := (k.size + 2) % 2 ^ 16, fixed := false }
  else if k.varColumnCount = 0 ∧ ¬k.fixed then
    return { k with size := sub16 k.size 2, fixed := true }
  else return k

/-! ### Dropping a column from a key -/

/-- The bytes of `columnInfo`. -/
def bytesOf (columnInfo : List UniqueKeyTypePair) : List Nat :=
  columnInfo.flatMap fun c => [c.type, c.columnId % 256, c.columnId / 256]

/-- `columnInfo` from its bytes. -/
def ofBytes : List Nat → List UniqueKeyTypePair
  | t :: lo :: hi :: rest => ⟨t, lo + 256 * hi⟩ :: ofBytes rest
  | _ => []

/-- `columnInfo` without its last pair, after the bytes of the pairs behind place `i` were moved to
    byte `at'` of pair `i`. -/
def closeGap (columnInfo : List UniqueKeyTypePair) (i at' : Nat) : List UniqueKeyTypePair :=
  let d := bytesOf columnInfo
  ofBytes ((d.take (3 * i + at') ++ d.drop (3 * (i + 1))).take (3 * (columnInfo.length - 1)))

/-- The count of the variable columns without a column of a type. -/
def forgetVar (k : UnionKeyMeta) (type : Nat) : Exec UnionKeyMeta := do
  let info ← tableAt columnInfos type
  return if info.fixed then k else { k with varColumnCount := sub8 k.varColumnCount 1 }

/-- How `dropColumn` takes the pair at `i` out of a unique key.  The destination of its `memcpy` is
    the `columnId` of the pair, one byte behind the start of the pair. -/
def removeFromUnique (k : UnionKeyMeta) (i : Nat) (c : UniqueKeyTypePair) :
    Exec UnionKeyMeta := do
  let k ← k.forgetVar c.type
  return { k with columnInfo := closeGap k.columnInfo i 1 }

/-- How `dropColumn` takes the pair at `i` out of the primary key.  The type is read after the
    pairs were moved; behind the last pair the old one is still there. -/
def removeFromPrimary (k : UnionKeyMeta) (i : Nat) (c : UniqueKeyTypePair) :
    Exec UnionKeyMeta :=
  let k := { k with columnInfo := closeGap k.columnInfo i 0 }
  k.forgetVar ((k.columnInfo[i]?.getD c).type)

/-- The loop of `dropColumn` over the columns of a key; each turn goes on by one place or shortens
    the key. -/
def dropLoop (remove : UnionKeyMeta → Nat → UniqueKeyTypePair → Exec UnionKeyMeta)
    (columnIndex : Nat) : Nat → Nat → UnionKeyMeta → Exec UnionKeyMeta
  | 0, _, k => .ok k
  | fuel + 1, i, k =>
    match k.columnInfo[i]? with
    | none => .ok k
    | some c =>
      if columnIndex < c.columnId then
        dropLoop remove columnIndex fuel (i + 1)
          { k with columnInfo := k.columnInfo.set i { c with columnId := c.columnId - 1 } }
      else if c.columnId = columnIndex then do
        let k ← remove k i c
        dropLoop remove columnIndex fuel i k
      else dropLoop remove columnIndex fuel (i + 1) k

/-- The loop of `dropColumn` over the columns of a key. -/
def dropColumn (remove : UnionKeyMeta → Nat → UniqueKeyTypePair → Exec UnionKeyMeta)
    (columnIndex : Nat) (k : UnionKeyMeta) : Exec UnionKeyMeta :=
  dropLoop remove columnIndex k.columnInfo.length 0 k

end UnionKeyMeta

end DBStream.Native.Meta
